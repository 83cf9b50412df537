import MicStream.Yaml.Token.Lexer
/-!
# Nodes of a YAML document

A document is a tree of scalars, sequences and mappings. An alias stays a
reference: anchors have slots, and an alias stands for the node that took its
slot last. A second anchor of a name that is in use takes the slot of that
number which is next by the count of names, so it may share a slot with a
later name.
-/
namespace MicStream.Yaml

/-- A tag in its full form, absent where the text gives none. A lone exclamation mark is a tag of
its own. -/
abbrev Tag := Option (List Char)

inductive Node where
  | alias (slot : Nat)
  | scalar (tag : Tag) (style : Style) (text : List Char)
  | sequence (tag : Tag) (items : List Node)
  | mapping (tag : Tag) (entries : List (Node × Node))

namespace Node

/-- A scalar that is not written at all. -/
def absent : Node := .scalar none .plain []

end Node

/-- What the nodes of a document are read against, and what was met so far. -/
structure Context where
  /-- What tag handles stand for. -/
  shorthands : List (List Char × List Char)
  /-- The slot of each anchor name. -/
  slots : List (List Char × Nat)
  /-- The slots taken, in the order in which their nodes start. -/
  taken : List Nat
  /-- Finished nodes with an anchor, by the position of their slot among those taken. -/
  finished : List (Nat × Node)

/-- One document. -/
structure Document where
  root : Node
  taken : List Nat
  finished : List (Nat × Node)

namespace Context

/-- The handles that every document knows. -/
def standardShorthands : List (List Char × List Char) :=
  [(['!'], ['!']), (['!', '!'], "tag:yaml.org,2002:".toList)]

def anchor (ctx : Context) (name : List Char) : Context × Nat :=
  let slot := ctx.slots.length
  ({ ctx with
      slots := (name, slot) :: ctx.slots.filter fun p => p.1 ≠ name
      taken := ctx.taken ++ [slot] }, ctx.taken.length)

/-- Records the finished node of an anchor. -/
def finish (ctx : Context) (position : Option Nat) (node : Node) : Context :=
  match position with
  | some p => { ctx with finished := (p, node) :: ctx.finished }
  | none => ctx

/-- The full form of a tag. -/
def expand? (ctx : Context) (handle suffix : List Char) : Option (List Char) :=
  if handle = [] then some suffix
  else (ctx.shorthands.find? fun p => p.1 = handle).map fun p => p.2 ++ suffix

end Context

/-! ## Properties in front of a node -/

/-- An anchor and a tag, in either order, in front of a node. -/
structure Properties where
  anchor : Option (List Char)
  tag : Option (List Char × List Char)

def properties : List Token → Properties × List Token
  | .anchor name :: .tag h s :: rest => (⟨some name, some (h, s)⟩, rest)
  | .tag h s :: .anchor name :: rest => (⟨some name, some (h, s)⟩, rest)
  | .anchor name :: rest => (⟨some name, none⟩, rest)
  | .tag h s :: rest => (⟨none, some (h, s)⟩, rest)
  | rest => (⟨none, none⟩, rest)

/-- Whether the list of tokens goes on with one of the given tokens. -/
def tokenNext (ts : List Token) (rest : List Token) : Bool :=
  match rest with
  | t :: _ => ts.contains t
  | [] => false

/-- A node, or the entries of a collection, with the context and the tokens behind it. -/
abbrev Parsed (β : Type) := β × Context × List Token

/-! ## Recursive descent

Every function takes fuel, which bounds the number of calls; a call takes a
token or is followed by one that does. -/

mutual

/-- A node. `block` admits block collections, `indentless` a sequence at the column of the
mapping that it is a value in. -/
def node? : Nat → (block indentless : Bool) → Context → List Token → Option (Parsed Node)
  | 0, _, _, _, _ => none
  | _ + 1, _, _, ctx, .alias name :: rest =>
    (ctx.slots.find? fun p => p.1 = name).map fun p => (.alias p.2, ctx, rest)
  | fuel + 1, block, indentless, ctx, ts => do
    let (props, ts) := properties ts
    let tag ← match props.tag with
      | some (handle, suffix) => (ctx.expand? handle suffix).map some
      | none => some none
    let (ctx, position) := match props.anchor with
      | some name => let (ctx, p) := ctx.anchor name; (ctx, some p)
      | none => (ctx, none)
    let (node, ctx, rest) ← content? fuel block indentless tag (props.anchor.isSome || tag.isSome) ctx ts
    some (node, ctx.finish position node, rest)

/-- The node behind its properties. With properties, a node that is not written is an empty
scalar. -/
def content? : Nat → (block indentless : Bool) → Tag → (described : Bool) → Context → List Token →
    Option (Parsed Node)
  | 0, _, _, _, _, _, _ => none
  | fuel + 1, block, indentless, tag, described, ctx, ts =>
    match ts with
    | .blockEntry :: _ =>
      if indentless then
        (openEntries? fuel ctx ts).map fun (items, ctx, rest) => (.sequence tag items, ctx, rest)
      else if described then some (.scalar tag .plain [], ctx, ts) else none
    | .scalar style text :: rest => some (.scalar tag style text, ctx, rest)
    | .flowSequenceStart :: rest =>
      (flowItems? fuel true ctx rest).map fun (items, ctx, rest) => (.sequence tag items, ctx, rest)
    | .flowMappingStart :: rest =>
      (flowEntries? fuel true ctx rest).map fun (entries, ctx, rest) => (.mapping tag entries, ctx, rest)
    | .blockSequenceStart :: rest =>
      if block then
        (blockItems? fuel ctx rest).map fun (items, ctx, rest) => (.sequence tag items, ctx, rest)
      else if described then some (.scalar tag .plain [], ctx, ts) else none
    | .blockMappingStart :: rest =>
      if block then
        (blockEntries? fuel ctx rest).map fun (entries, ctx, rest) => (.mapping tag entries, ctx, rest)
      else if described then some (.scalar tag .plain [], ctx, ts) else none
    | _ => if described then some (.scalar tag .plain [], ctx, ts) else none

/-- A node, or an absent one in front of the given tokens. -/
def nodeUnless? : Nat → List Token → (block indentless : Bool) → Context → List Token →
    Option (Parsed Node)
  | 0, _, _, _, _, _ => none
  | fuel + 1, stops, block, indentless, ctx, ts =>
    if tokenNext stops ts then some (.absent, ctx, ts) else node? fuel block indentless ctx ts

/-- Entries of a block sequence up to and with its end. -/
def blockItems? : Nat → Context → List Token → Option (Parsed (List Node))
  | 0, _, _ => none
  | fuel + 1, ctx, ts =>
    match ts with
    | .blockEntry :: rest => do
      let (item, ctx, rest) ← nodeUnless? fuel [.blockEntry, .blockEnd] true false ctx rest
      let (items, ctx, rest) ← blockItems? fuel ctx rest
      some (item :: items, ctx, rest)
    | .blockEnd :: rest => some ([], ctx, rest)
    | _ => none

/-- Entries of a sequence without an end of its own. -/
def openEntries? : Nat → Context → List Token → Option (Parsed (List Node))
  | 0, _, _ => none
  | fuel + 1, ctx, ts =>
    match ts with
    | .blockEntry :: rest => do
      let (item, ctx, rest) ← nodeUnless? fuel [.blockEntry, .key, .value, .blockEnd] true false ctx rest
      let (items, ctx, rest) ← openEntries? fuel ctx rest
      some (item :: items, ctx, rest)
    | _ => some ([], ctx, ts)

/-- Entries of a block mapping up to and with its end. -/
def blockEntries? : Nat → Context → List Token → Option (Parsed (List (Node × Node)))
  | 0, _, _ => none
  | fuel + 1, ctx, ts =>
    match ts with
    | .key :: rest => do
      let (key, ctx, rest) ← nodeUnless? fuel [.key, .value, .blockEnd] true true ctx rest
      let (value, ctx, rest) ← match rest with
        | .value :: rest => nodeUnless? fuel [.key, .value, .blockEnd] true true ctx rest
        | _ => some (Node.absent, ctx, rest)
      let (entries, ctx, rest) ← blockEntries? fuel ctx rest
      some ((key, value) :: entries, ctx, rest)
    | .blockEnd :: rest => some ([], ctx, rest)
    | _ => none

/-- Entries of a flow sequence up to and with its end. An entry that starts with a key is a
mapping of that one key. -/
def flowItems? : Nat → (first : Bool) → Context → List Token → Option (Parsed (List Node))
  | 0, _, _, _ => none
  | fuel + 1, first, ctx, ts =>
    match ts with
    | .flowSequenceEnd :: rest => some ([], ctx, rest)
    | _ => do
      let ts ← if first then some ts else match ts with
        | .flowEntry :: rest => some rest
        | _ => none
      match ts with
      | .flowSequenceEnd :: rest => some ([], ctx, rest)
      | .key :: rest => do
        let (item, ctx, rest) ← singlePair? fuel ctx rest
        let (items, ctx, rest) ← flowItems? fuel false ctx rest
        some (item :: items, ctx, rest)
      | _ => do
        let (item, ctx, rest) ← node? fuel false false ctx ts
        let (items, ctx, rest) ← flowItems? fuel false ctx rest
        some (item :: items, ctx, rest)

/-- The one pair behind a key mark in a flow sequence. An absent key takes the token in front of
which it stands with it. -/
def singlePair? : Nat → Context → List Token → Option (Parsed Node)
  | 0, _, _ => none
  | fuel + 1, ctx, ts => do
    let (key, ctx, rest) ←
      if tokenNext [.value, .flowEntry, .flowSequenceEnd] ts then some (Node.absent, ctx, ts.drop 1)
      else node? fuel false false ctx ts
    let (value, ctx, rest) ← match rest with
      | .value :: rest => nodeUnless? fuel [.flowEntry, .flowSequenceEnd] false false ctx rest
      | _ => some (Node.absent, ctx, rest)
    some (.mapping none [(key, value)], ctx, rest)

/-- Entries of a flow mapping up to and with its end. An entry without a key mark is a key
without a value. -/
def flowEntries? : Nat → (first : Bool) → Context → List Token → Option (Parsed (List (Node × Node)))
  | 0, _, _, _ => none
  | fuel + 1, first, ctx, ts =>
    match ts with
    | .flowMappingEnd :: rest => some ([], ctx, rest)
    | _ => do
      let ts ← if first then some ts else match ts with
        | .flowEntry :: rest => some rest
        | _ => none
      match ts with
      | .flowMappingEnd :: rest => some ([], ctx, rest)
      | .key :: rest => do
        let (key, ctx, rest) ← nodeUnless? fuel [.value, .flowEntry, .flowMappingEnd] false false ctx rest
        let (value, ctx, rest) ← match rest with
          | .value :: rest => nodeUnless? fuel [.flowEntry, .flowMappingEnd] false false ctx rest
          | _ => some (Node.absent, ctx, rest)
        let (entries, ctx, rest) ← flowEntries? fuel false ctx rest
        some ((key, value) :: entries, ctx, rest)
      | _ => do
        let (key, ctx, rest) ← node? fuel false false ctx ts
        let (entries, ctx, rest) ← flowEntries? fuel false ctx rest
        some ((key, .absent) :: entries, ctx, rest)

end

/-! ## Documents -/

def directives? : (versioned : Bool) → List (List Char × List Char) → List Token →
    Option (List (List Char × List Char) × List Token)
  | versioned, shorthands, .version major minor :: rest =>
    if versioned ∨ major ≠ 1 ∨ (minor ≠ 1 ∧ minor ≠ 2) then none
    else directives? true shorthands rest
  | versioned, shorthands, .tagShorthand handle expansion :: rest =>
    if shorthands.any (·.1 = handle) then none
    else directives? versioned (shorthands ++ [(handle, expansion)]) rest
  | _, shorthands, rest => some (shorthands ++ Context.standardShorthands, rest)

/-- The root of the only document in a list of tokens; an explicit document may be without
content. -/
def rootOf? (ctx : Context) (ts : List Token) : Option (Parsed Node) :=
  let fuel := 4 * ts.length + 8
  match ts with
  | .version _ _ :: _ | .tagShorthand _ _ :: _ | .documentStart :: _ =>
    (directives? false [] ts).bind fun (shorthands, rest) =>
      let ctx := { ctx with shorthands }
      match rest with
      | .documentStart :: rest =>
        match rest with
        | [] | .version _ _ :: _ | .tagShorthand _ _ :: _ | .documentStart :: _ | .documentEnd :: _ =>
          some (.absent, ctx, rest)
        | _ => node? fuel true false ctx rest
      | _ => none
  | _ => node? fuel true false ctx ts

/-- The document of a text with at most one; a text without any is an empty mapping. -/
def document? (text : List Char) : Option Document := do
  let ts ← tokens? text
  if ts = [] then some ⟨.mapping none [], [], []⟩
  else
    let (root, ctx, rest) ← rootOf? ⟨Context.standardShorthands, [], [], []⟩ ts
    if rest.all (· = .documentEnd) then some ⟨root, ctx.taken, ctx.finished⟩ else none

namespace Document

/-- The node that an alias stands for; other nodes stand for themselves. -/
def resolve? (d : Document) : Node → Option Node
  | .alias slot => do
    let position ← ((List.range d.taken.length).reverse.find? fun i => d.taken[i]? = some slot)
    (d.finished.find? fun p => p.1 = position).map (·.2)
  | n => some n

end Document

end MicStream.Yaml
