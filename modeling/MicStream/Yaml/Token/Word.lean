import MicStream.Yaml.Spot
import MicStream.Yaml.Token
/-!
# Anchors, tags and directives

The tokens that stand on one line and whose extent does not depend on
indentation. A tag is kept as the handle that a document's shorthands expand
and the suffix behind it; an empty handle means that the suffix is the whole
tag.
-/
namespace MicStream.Yaml

def hexDigit? (c : Char) : Option Nat :=
  let n := c.toNat
  if 48 ≤ n ∧ n ≤ 57 then some (n - 48)
  else if 97 ≤ n ∧ n ≤ 102 then some (n - 87)
  else if 65 ≤ n ∧ n ≤ 70 then some (n - 55)
  else none

/-- The value of exactly `count` hexadecimal digits, and the rest. -/
def hexDigits? : Nat → Nat → List Spot → Option (Nat × List Spot)
  | 0, n, ss => some (n, ss)
  | count + 1, n, s :: rest => (hexDigit? s.char).bind fun d => hexDigits? count (n * 16 + d) rest
  | _ + 1, _, [] => none

def anchorName? (ss : List Spot) : Option (List Char × List Spot) :=
  let (name, rest) := takeChars isWord ss
  if name ≠ [] ∧ (blankNext rest ∨ nextIn ['?', ':', ',', ']', '}', '%', '@', '\x60'] rest) then
    some (name, rest)
  else none

/-! ## Tags -/

/-- Characters of tag suffixes; verbatim tags also admit the flow marks. -/
def isTagChar (verbatim : Bool) (c : Char) : Bool :=
  isWord c || [';', '/', '?', ':', '@', '&', '=', '+', '$', '.', '%', '!', '~', '*', '\x27', '(',
    ')'].contains c
    || (verbatim && [',', '[', ']'].contains c)

/-- The length of a character's code that starts with the given octet; 0 for none. -/
def codeLength (octet : Nat) : Nat :=
  if octet < 0x80 then 1
  else if octet / 0x20 = 6 then 2
  else if octet / 0x10 = 14 then 3
  else if octet / 8 = 30 then 4
  else 0

/-- A suffix with its percent escapes resolved octet by octet; `pending` octets of a code are
still due. The fuel bounds the length. -/
def tagSuffix? (verbatim : Bool) : Nat → Nat → List Spot → Option (List Char × List Spot)
  | 0, _, _ => none
  | fuel + 1, pending, s :: rest =>
    if s.char = '%' then
      (hexDigits? 2 0 rest).bind fun (octet, rest) =>
        let due :=
          if pending = 0 then codeLength octet
          else if octet / 0x40 = 2 then pending else 0
        if due = 0 then none
        else (tagSuffix? verbatim fuel (due - 1) rest).map fun (cs, rest) => (Char.ofNat octet :: cs, rest)
    else if pending ≠ 0 then none
    else if isTagChar verbatim s.char then
      (tagSuffix? verbatim fuel 0 rest).map fun (cs, rest) => (s.char :: cs, rest)
    else some ([], s :: rest)
  | _ + 1, pending, [] => if pending = 0 then some ([], []) else none

def tagText? (verbatim : Bool) (ss : List Spot) : Option (List Char × List Spot) :=
  tagSuffix? verbatim (ss.length + 1) 0 ss

/-- Letters behind an exclamation mark, with the closing mark if there is one. -/
def tagHandle (ss : List Spot) : List Char × List Spot :=
  let (name, rest) := takeChars isWord ss
  match rest with
  | s :: tail => if s.char = '!' then ('!' :: name ++ ['!'], tail) else ('!' :: name, rest)
  | [] => ('!' :: name, [])

/-- Whether letters behind an exclamation mark form a handle of their own. -/
def isFullHandle (handle : List Char) : Bool := 1 < handle.length && handle.getLast? = some '!'

def tag? (inFlow : Bool) (ss : List Spot) : Option (Token × List Spot) := do
  let (token, rest) ←
    if nextIn ['<'] ss then do
      let (suffix, rest) ← tagText? true (ss.drop 1)
      if suffix = [] ∨ ¬ nextIn ['>'] rest then none
      else some (Token.tag [] suffix, rest.drop 1)
    else do
      let (handle, rest) := tagHandle ss
      let (suffix, rest) ← tagText? false rest
      if isFullHandle handle then
        if suffix = [] then none else some (Token.tag handle suffix, rest)
      else
        let whole := handle.drop 1 ++ suffix
        some (if whole = [] then Token.tag [] ['!'] else Token.tag ['!'] whole, rest)
  if blankNext rest ∨ (inFlow ∧ nextIn [','] rest) then some (token, rest) else none

/-! ## Directives -/

def versionNumber? (ss : List Spot) : Option (Nat × List Spot) :=
  let (ds, rest) := takeChars Char.isDigit ss
  if ds = [] ∨ 9 < ds.length then none else some (Nat.ofDigitChars 10 ds 0, rest)

/-- A directive, behind its percent sign, up to and with the end of its line. -/
def directive? (ss : List Spot) : Option (Token × List Spot) := do
  let (name, rest) := takeChars isWord ss
  if ¬ blankNext rest then none
  let rest := dropChars isBlank rest
  if name = ['Y', 'A', 'M', 'L'] then
    let (major, rest) ← versionNumber? rest
    if ¬ nextIn ['.'] rest then none
    let (minor, rest) ← versionNumber? (rest.drop 1)
    let rest ← restOfLine? rest
    some (.version major minor, rest)
  else if name = ['T', 'A', 'G'] then
    if ¬ nextIn ['!'] rest then none
    let (handle, rest) := tagHandle (rest.drop 1)
    if handle ≠ ['!'] ∧ ¬ isFullHandle handle then none
    if rest = [] ∨ ¬ blankNext rest ∨ nextIn ['\n', '\u2028', '\u2029'] rest then none
    let (expansion, rest) ← tagText? true (dropChars isBlank rest)
    if expansion = [] ∨ ¬ blankNext rest then none
    let rest ← restOfLine? rest
    some (.tagShorthand handle expansion, rest)
  else none

end MicStream.Yaml
