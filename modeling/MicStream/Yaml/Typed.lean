import MicStream.Yaml.Node
import MicStream.Decimal.Literal
/-!
# Typed values of YAML nodes

What a node means depends on the type that is asked for: the same bare text
is a number for one reader and a name for another. Quoted scalars are texts
only. Every reader first follows an alias to its node.
-/
namespace MicStream.Yaml

open MicStream.Binary MicStream.Decimal

/-! ## Texts of numbers and truth values -/

/-- The tags of the core types. -/
def coreTag (name : String) : Tag := some ("tag:yaml.org,2002:" ++ name).toList

def isNullText (cs : List Char) : Bool :=
  [['~'], "null".toList, "Null".toList, "NULL".toList].contains cs

def truth? (cs : List Char) : Option Bool :=
  if ["true".toList, "True".toList, "TRUE".toList].contains cs then some true
  else if ["false".toList, "False".toList, "FALSE".toList].contains cs then some false
  else none

def digitBelow? (base : Nat) (c : Char) : Option Nat :=
  let n := c.toNat
  let d :=
    if 48 ≤ n ∧ n ≤ 57 then n - 48
    else if 97 ≤ n ∧ n ≤ 122 then n - 87
    else if 65 ≤ n ∧ n ≤ 90 then n - 55
    else base
  if d < base then some d else none

/-- The number that a non-empty run of digits stands for. -/
def natural? (base : Nat) (cs : List Char) : Option Nat :=
  if cs = [] then none
  else cs.foldl (fun n c => n.bind fun n => (digitBelow? base c).map (n * base + ·)) (some 0)

/-- Digits in the base that a leading `0x`, `0o` or `0b` names; in base ten a leading zero stands
alone. -/
def magnitude? (cs : List Char) : Option Nat :=
  match cs with
  | '0' :: 'x' :: ds => natural? 16 ds
  | '0' :: 'o' :: ds => natural? 8 ds
  | '0' :: 'b' :: ds => natural? 2 ds
  | '0' :: _ :: _ => none
  | ds => natural? 10 ds

def integer? (cs : List Char) : Option Int :=
  match cs with
  | '-' :: ds => (magnitude? ds).map fun n => -(n : Int)
  | '+' :: ds => (magnitude? ds).map fun n => (n : Int)
  | ds => (magnitude? ds).map fun n => (n : Int)

def unsigned? (cs : List Char) : Option Nat :=
  match cs with
  | '+' :: ds => magnitude? ds
  | ds => magnitude? ds

/-- A number in double precision: a decimal literal that does not exceed the range, or one of
the named values. A plus sign may stand in front of either, except of not-a-number. -/
def real? (cs : List Char) : Option Value :=
  let body := match cs with
    | '+' :: rest => rest
    | _ => cs
  if cs ≠ body ∧ (body.head? = some '+' ∨ body.head? = some '-') then none
  else if [".inf".toList, ".Inf".toList, ".INF".toList].contains body then some (.infinite false)
  else if ["-.inf".toList, "-.Inf".toList, "-.INF".toList].contains cs then some (.infinite true)
  else if [".nan".toList, ".NaN".toList, ".NAN".toList].contains cs then some .nan
  else match (Literal.ofText? body).map (Literal.round binary64) with
    | some (.finite negative m q) => some (.finite negative m q)
    | _ => none

/-! ## Readers -/

namespace Document

def text? (d : Document) (n : Node) : Option String :=
  match d.resolve? n with
  | some (.scalar _ _ text) => some (String.ofList text)
  | _ => none

/-- The text of a scalar that may be read as a core type: a bare one, or a literal block that is
tagged with that type. -/
def coreText? (d : Document) (type : String) (n : Node) : Option (List Char) :=
  match d.resolve? n with
  | some (.scalar tag style text) =>
    if style = .plain ∨ (style = .literal ∧ tag = coreTag type) then some text else none
  | _ => none

def boolean? (d : Document) (n : Node) : Option Bool := (d.coreText? "bool" n).bind truth?

/-- A natural number of at most `max`. -/
def natural? (d : Document) (max : Nat) (n : Node) : Option Nat :=
  ((d.coreText? "int" n).bind unsigned?).filter (· ≤ max)

def integer? (d : Document) (lo hi : Int) (n : Node) : Option Int :=
  ((d.coreText? "int" n).bind Yaml.integer?).filter fun x => lo ≤ x ∧ x ≤ hi

/-- A number, read in double precision and then rounded to single precision. -/
def single? (d : Document) (n : Node) : Option Float32 :=
  ((d.coreText? "float" n).bind real?).map toFloat32

/-- Whether a node stands for no value: a bare scalar that is empty or spells null. With the tag
of null it has to spell null, and with any other tag it is a value. -/
def isNull? (d : Document) (n : Node) : Option Bool :=
  (d.resolve? n).bind fun n => match n with
    | .scalar none .plain text => some (text = [] ∨ isNullText text)
    | .scalar tag .plain text =>
      if tag = coreTag "null" then (if isNullText text then some true else none) else some false
    | _ => some false

/-- Reads a value that may be null. -/
def optional? {β : Type} (d : Document) (read : Node → Option β) (n : Node) : Option (Option β) :=
  (d.isNull? n).bind fun null => if null then some none else (read n).map some

/-- The entries of a mapping, by the texts of their keys. A bare scalar that is not written at all
has none. -/
def entries? (d : Document) (n : Node) : Option (List (String × Node)) :=
  match d.resolve? n with
  | some (.mapping _ entries) => entries.mapM fun e => (d.text? e.1).map fun k => (k, e.2)
  | some (.scalar _ .plain []) => some []
  | _ => none

/-- The value of a key that occurs at most once. -/
def single1? (entries : List (String × Node)) (key : String) : Option (Option Node) :=
  match entries.filter fun e => e.1 = key with
  | [] => some none
  | [e] => some (some e.2)
  | _ => none

/-- Reads the value of a key that may be missing or null. -/
def field? {β : Type} (d : Document) (entries : List (String × Node)) (key : String)
    (read : Node → Option β) : Option (Option β) :=
  (single1? entries key).bind fun n => match n with
    | none => some none
    | some n => d.optional? read n

/-- Reads the value of a key that has to be there. -/
def required? {β : Type} (entries : List (String × Node)) (key : String)
    (read : Node → Option β) : Option β :=
  (single1? entries key).bind fun n => n.bind read

end Document

end MicStream.Yaml
