import MicStream.Yaml.Token.Scalar
/-!
# From text to tokens

Inside brackets and braces the text is free of layout. Outside, a token that
stands further right than the innermost open block opens a new block, and one
that stands further left closes blocks. Wherever a key may stand without a
question mark, the place is remembered; when a colon follows on the same line
within 1024 bytes, the key is announced at that place after all.
-/
namespace MicStream.Yaml

/-- A place where a key may have started: the number of tokens in front of it, and whether the
layout leaves no other reading. -/
structure KeyPlace where
  required : Bool
  tokens : Nat
  line : Nat
  column : Nat
  offset : Nat
  deriving DecidableEq, Repr

/-- The tokens so far and what the next one depends on. -/
structure LexState where
  /-- Last token first. -/
  tokens : List Token
  count : Nat
  /-- Column of the innermost open block, -1 for none. -/
  indent : Int
  outerIndents : List Int
  /-- Whether a key may start here. -/
  keyAllowed : Bool
  /-- The open key place of the innermost level, and those of the levels around it: one for each
  open bracket or brace. -/
  place : Option KeyPlace
  outerPlaces : List (Option KeyPlace)
  deriving DecidableEq, Repr

namespace LexState

def start : LexState := ⟨[], 0, -1, [], true, none, []⟩

def inFlow (st : LexState) : Bool := !st.outerPlaces.isEmpty

def push (st : LexState) (t : Token) : LexState :=
  { st with tokens := t :: st.tokens, count := st.count + 1 }

def insertAt (st : LexState) (n : Nat) (t : Token) : LexState :=
  { st with
    tokens := st.tokens.take (st.count - n) ++ t :: st.tokens.drop (st.count - n)
    count := st.count + 1 }

/-- Opens a block at a column, unless an open one already stands there or further right. The
opening token goes behind the first `n` tokens. -/
def openBlock (st : LexState) (column n : Nat) (t : Token) : LexState :=
  if st.inFlow ∨ (column : Int) ≤ st.indent then st
  else { st.insertAt n t with indent := column, outerIndents := st.indent :: st.outerIndents }

/-- Closes the blocks right of a column. -/
def closeBlocks (st : LexState) (column : Int) : LexState :=
  if st.inFlow then st else go st.outerIndents st
where
  /-- Closes one block for each enclosing one that there is. -/
  go : List Int → LexState → LexState
    | [], st => st
    | outer :: rest, st =>
      if column < st.indent then go rest { st.push .blockEnd with indent := outer, outerIndents := rest }
      else st

/-- Gives up the innermost key place. -/
def dropPlace? (st : LexState) : Option LexState :=
  match st.place with
  | some p => if p.required then none else some { st with place := none }
  | none => some st

/-- Remembers the next token's place, if a key may start there. -/
def savePlace? (st : LexState) (s : Spot) : Option LexState :=
  if st.keyAllowed then
    st.dropPlace?.map fun st =>
      { st with place := some ⟨!st.inFlow && st.indent == s.column, st.count, s.line, s.column, s.offset⟩ }
  else some st

/-- A key place that a colon at the given spot could no longer belong to. -/
def isStale (s : Spot) (p : KeyPlace) : Bool := p.line < s.line || p.offset + 1024 < s.offset

/-- Gives up the innermost key place if it is too far away; fails if it was required. A place of an
outer level is looked at when its level is the innermost again: by then it is no nearer. -/
def dropStale? (st : LexState) (s : Spot) : Option LexState :=
  if st.place.any (isStale s) then st.dropPlace? else some st

/-- A directive or a document mark closes everything. -/
def endAll? (st : LexState) : Option LexState :=
  (st.closeBlocks (-1)).dropPlace?.map fun st => { st with keyAllowed := false }

end LexState

/-- Skips blanks, comments and line ends in front of the next token, and a byte order mark at the
start of a line. Outside of flow a line end allows a key, and where a key is allowed a tab is not
skipped. -/
def toToken (inFlow : Bool) (keyAllowed inComment : Bool) : List Spot → Bool × List Spot
  | [] => (keyAllowed, [])
  | s :: rest =>
    if isBreak s.char then toToken inFlow (keyAllowed || !inFlow) false rest
    else if inComment then toToken inFlow keyAllowed true rest
    else if s.char = '\ufeff' ∧ s.column = 0 then toToken inFlow keyAllowed false rest
    else if s.char = ' ' ∨ (s.char = '\t' ∧ (inFlow ∨ ¬ keyAllowed)) then
      toToken inFlow keyAllowed false rest
    else if s.char = '#' then toToken inFlow keyAllowed true rest
    else (keyAllowed, s :: rest)

def startsBare (inFlow : Bool) (c : Char) (rest : List Spot) : Bool :=
  let marks := ['-', '?', ':', ',', '[', ']', '\x7b', '\x7d', '#', '&', '*', '!', '|', '>', '\x27', '\x22',
    '%', '@', '\x60']
  !(marks.contains c || isBlank c || isBreak c)
    || (c = '-' && !nextIn [' ', '\t'] rest)
    || (!inFlow && (c = '?' || c = ':') && !blankNext rest)

namespace LexState

/-- A token that may be a key. -/
def pushKeyable? (st : LexState) (s : Spot) (t : Token) : Option LexState :=
  (st.savePlace? s).map fun st => { st.push t with keyAllowed := false }

def openFlow? (st : LexState) (s : Spot) (t : Token) : Option LexState :=
  (st.savePlace? s).map fun st =>
    { st.push t with place := none, outerPlaces := st.place :: st.outerPlaces, keyAllowed := true }

def closeFlow? (st : LexState) (t : Token) : Option LexState :=
  st.dropPlace?.map fun st =>
    let st := match st.outerPlaces with
      | [] => st
      | p :: rest => { st with place := p, outerPlaces := rest }
    { st.push t with keyAllowed := false }

/-- A mark of block layout: outside of flow it needs a place where a key may start, and opens a
block there. -/
def openAt? (st : LexState) (s : Spot) (t : Token) : Option LexState :=
  if st.inFlow then some st
  else if st.keyAllowed then some (st.openBlock s.column st.count t)
  else none

def entry? (st : LexState) (s : Spot) : Option LexState := do
  let st ← (← st.openAt? s .blockSequenceStart).dropPlace?
  some { st.push .blockEntry with keyAllowed := true }

def key? (st : LexState) (s : Spot) : Option LexState := do
  let st ← (← st.openAt? s .blockMappingStart).dropPlace?
  some { st.push .key with keyAllowed := !st.inFlow }

def value? (st : LexState) (s : Spot) : Option LexState :=
  match st.place with
  | some p =>
    let st := (st.insertAt p.tokens .key).openBlock p.column p.tokens .blockMappingStart
    some { st.push .value with place := none, keyAllowed := false }
  | none => do
    let st ← st.openAt? s .blockMappingStart
    some { st.push .value with keyAllowed := !st.inFlow }

/-- Reads the token that starts with the given spot: the state after it and the spots behind it. -/
def next? (st : LexState) (s : Spot) (rest : List Spot) : Option (LexState × List Spot) :=
  let here := s :: rest
  let c := s.char
  if s.column = 0 ∧ c = '%' then do
    let st ← st.endAll?
    let (t, rest) ← directive? rest
    some (st.push t, rest)
  else if isDocumentMark '-' here then st.endAll?.map fun st => (st.push .documentStart, here.drop 3)
  else if isDocumentMark '.' here then st.endAll?.map fun st => (st.push .documentEnd, here.drop 3)
  else if c = '[' then (st.openFlow? s .flowSequenceStart).map (·, rest)
  else if c = '\x7b' then (st.openFlow? s .flowMappingStart).map (·, rest)
  else if c = ']' then (st.closeFlow? .flowSequenceEnd).map (·, rest)
  else if c = '\x7d' then (st.closeFlow? .flowMappingEnd).map (·, rest)
  else if c = ',' then st.dropPlace?.map fun st => ({ st.push .flowEntry with keyAllowed := true }, rest)
  else if c = '-' ∧ blankNext rest then (st.entry? s).map (·, rest)
  else if c = '?' ∧ (st.inFlow ∨ blankNext rest) then (st.key? s).map (·, rest)
  else if c = ':' ∧ (st.inFlow ∨ blankNext rest) then (st.value? s).map (·, rest)
  else if c = '*' then do
    let (name, rest) ← anchorName? rest
    (st.pushKeyable? s (.alias name)).map (·, rest)
  else if c = '&' then do
    let (name, rest) ← anchorName? rest
    (st.pushKeyable? s (.anchor name)).map (·, rest)
  else if c = '!' then do
    let (t, rest) ← tag? st.inFlow rest
    (st.pushKeyable? s t).map (·, rest)
  else if (c = '|' ∨ c = '>') ∧ ¬ st.inFlow then do
    let st ← st.dropPlace?
    let r ← block? (c = '>') st.indent rest
    let style := if c = '>' then Style.folded else Style.literal
    some ({ st.push (.scalar style r.text) with keyAllowed := true }, r.rest)
  else if c = '\x27' ∨ c = '\x22' then do
    let r ← quoted? (c = '\x27') (rest.length + 1) [] .empty rest
    let style := if c = '\x27' then Style.singleQuoted else Style.doubleQuoted
    (st.pushKeyable? s (.scalar style r.text)).map (·, r.rest)
  else if startsBare st.inFlow c rest then do
    let r ← bare? st.inFlow (st.indent + 1) [] .empty here
    (st.pushKeyable? s (.scalar .plain r.text)).map fun st => ({ st with keyAllowed := r.pastLine }, r.rest)
  else none

/-- Reads all tokens. The fuel bounds their number. -/
def run? : Nat → LexState → List Spot → Option LexState
  | 0, _, _ => none
  | fuel + 1, st, ss =>
    let (keyAllowed, ss) := toToken st.inFlow st.keyAllowed false ss
    let st := { st with keyAllowed }
    match ss with
    | [] => (st.closeBlocks (-1)).dropPlace?
    | s :: rest => do
      let st ← st.dropStale? s
      let (st, rest) ← (st.closeBlocks s.column).next? s rest
      run? fuel st rest

end LexState

/-- The tokens of a text, unless it breaks a rule of layout or spelling. -/
def tokens? (text : List Char) : Option (List Token) := do
  let spots ← spots? text
  let st ← LexState.start.run? (spots.length + 1) spots
  some st.tokens.reverse

end MicStream.Yaml
