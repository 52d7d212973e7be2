/-
Module: ScriptBytecode.Yaml.Read
Purpose: Reading values off nodes. What a scalar can be depends on its style: only plain scalars are numbers, truth
  values or null, while any scalar is a text. Aliases are followed, but not without limit.
Main exports: Read, Node.read?, Node.text, Node.nat, Node.int, Node.bool, Node.option, Node.variant, Node.list,
  Node.entries, Node.record
-/
import ScriptBytecode.Yaml.Node

namespace ScriptBytecode.Yaml

/-!
### Scalars as values
-/

/-- An unsigned number: `0x`, `0o` and `0b` announce other bases than ten, and a decimal number has no leading
    zero. -/
def unsigned? : List Char → Option Nat
  | '0' :: 'x' :: rest => digits? 16 rest
  | '0' :: 'o' :: rest => digits? 8 rest
  | '0' :: 'b' :: rest => digits? 2 rest
  | ['0'] => some 0
  | '0' :: _ => none
  | text => digits? 10 text

/-- A number with an optional sign. -/
def signed? : List Char → Option Int
  | '+' :: rest => (unsigned? rest).map Int.ofNat
  | '-' :: rest => (unsigned? rest).map fun n => -(n : Int)
  | text => (unsigned? text).map Int.ofNat

/-- A number with an optional plus sign. -/
def positive? : List Char → Option Nat
  | '+' :: rest => unsigned? rest
  | text => unsigned? text

/-- A truth value. -/
def truth? (text : String) : Option Bool :=
  if text == "true" || text == "True" || text == "TRUE" then some true
  else if text == "false" || text == "False" || text == "FALSE" then some false
  else none

/-- Spellings of null. -/
def isNull (text : String) : Bool :=
  text == "null" || text == "Null" || text == "NULL" || text == "~"

/-- Tag of null. -/
def nullTag : String := "tag:yaml.org,2002:null"

/-- Tag of truth values. -/
def boolTag : String := "tag:yaml.org,2002:bool"

/-- Tag of whole numbers. -/
def intTag : String := "tag:yaml.org,2002:int"

/-!
### Readers
-/

/-- What readers know of a document: its nodes with anchors, and how often aliases may be followed. -/
structure Anchors where
  nodes : List (Nat × Node) := []
  limit : Nat := 0

/-- Reads something; the state is how often an alias has been followed. -/
abbrev Read := ReaderT Anchors (StateT Nat Option)

/-- How often aliases may be followed for each event of a document. -/
def aliasFactor : Nat := 100

namespace Node

variable {α κ : Type}

/-- Reads a value off a whole document. -/
def read? (root : Node) (read : Node → Read α) : Option α :=
  ((read root).run { nodes := root.anchors, limit := aliasFactor * root.eventCount }).run' 0

/-- A value that has to be there. -/
def given (value? : Option α) : Read α :=
  match value? with
  | some value => return value
  | none => failure

/-- The node that an alias stands for; any other node stands for itself. -/
def target : Node → Read Node
  | .alias anchor => do
    let anchors ← read
    modify (· + 1)
    if anchors.limit < (← get) then failure
    given (anchors.nodes.lookup anchor)
  | node => return node

/-- The text of a scalar, as it stands. -/
def text (node : Node) : Read String := do
  match ← node.target with
  | .scalar _ text _ => return text
  | _ => failure

/-- The text of a scalar that can be a value with a tag: a plain one, or a literal one with that tag. -/
def valueText (tag : String) (node : Node) : Read String := do
  match ← node.target with
  | .scalar properties text style =>
    if style = .plain ∨ (style = .literal ∧ properties.tag = some tag) then return text else failure
  | _ => failure

/-- A number between zero and a maximum. -/
def nat (maximum : Nat) (node : Node) : Read Nat := do
  let text ← node.valueText intTag
  given ((positive? text.toList).filter (· ≤ maximum))

/-- A number between two bounds. -/
def int (minimum maximum : Int) (node : Node) : Read Int := do
  let text ← node.valueText intTag
  given ((signed? text.toList).filter fun n => minimum ≤ n && n ≤ maximum)

/-- A truth value. -/
def bool (node : Node) : Read Bool := do
  given (truth? (← node.valueText boolTag))

/-- A value that may be null. A scalar with a tag is null only if the tag says so. -/
def option (read : Node → Read α) (node : Node) : Read (Option α) := do
  let node ← node.target
  match node with
  | .scalar properties text .plain =>
    match properties.tag with
    | some tag =>
      if tag = nullTag then
        if isNull text then return none else failure
      else return some (← read node)
    | none => if text.isEmpty || isNull text then return none else return some (← read node)
  | _ => return some (← read node)

/-- One of several named values. The name is the text of a scalar, or its local tag if the scalar is null. -/
def variant (named? : String → Option α) (node : Node) : Read α := do
  match ← node.target with
  | .scalar properties text style =>
    match properties.tag.map String.toList with
    | some ('!' :: name) =>
      if style = .plain ∧ (text.isEmpty ∨ isNull text) then given (named? (String.ofList name))
      else failure
    | _ => given (named? text)
  | _ => failure

/-- A list. Nothing at all is the empty list. -/
def list (read : Node → Read α) (node : Node) : Read (List α) := do
  match ← node.target with
  | .sequence _ items => items.mapM read
  | .scalar _ "" .plain => return []
  | _ => failure

/-- The entries of a mapping, in order. Nothing at all is the empty mapping. -/
def entries (key : Node → Read κ) (value : Node → Read α) (node : Node) : Read (List (κ × α)) := do
  match ← node.target with
  | .mapping _ entries => entries.mapM fun (k, v) => do return (← key k, ← value v)
  | .scalar _ "" .plain => return []
  | _ => failure

/-- The fields of a record with the given field names. A field may not be repeated; a field with another name
    is an error if the record is `exact`, and ignored otherwise. -/
def record (names : List String) (exact : Bool) (node : Node) : Read (List (String × Node)) := do
  let fields ← node.entries text pure
  let known := fields.filter fun (name, _) => names.contains name
  if exact && known.length != fields.length then failure
  if (known.map (·.1)).eraseDups.length != known.length then failure
  return known

end Node

/-!
### Fields of records
-/

section Fields

variable {α : Type} (fields : List (String × Node)) (name : String) (read : Node → Read α)

/-- Reads a field, if it is there. -/
def field? : Read (Option α) :=
  match fields.lookup name with
  | none => return none
  | some node => return some (← read node)

/-- Reads a field, or takes a default if it is not there. -/
def fieldD (default : α) : Read α := return (← field? fields name read).getD default

/-- Reads a field that has to be there. -/
def required : Read α := do Node.given (← field? fields name read)

/-- Reads a field that may be missing or null. -/
def nullable : Read (Option α) := return (← field? fields name (Node.option read)).join

end Fields

end ScriptBytecode.Yaml
