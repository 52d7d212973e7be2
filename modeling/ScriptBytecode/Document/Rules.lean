/-
Module: ScriptBytecode.Document.Rules
Purpose: Rules as documents write them. A document is a list of entries, each with a range of codes, a window of
  formats and at most one action.
Main exports: RuleEntry, RuleEntry.rule, Document.rules, Document.rulesOfText
-/
import ScriptBytecode.Document
import ScriptBytecode.Rule

namespace ScriptBytecode

/-- A rule as a document writes it. -/
structure RuleEntry where
  first : UInt8
  /-- Last code of the range, `first` if it is not given. -/
  last : Option UInt8 := none
  window : Window := {}
  opcode : Option String := none
  shift : Option Int := none
  legacyCast : Bool := false
  unused : Bool := false
deriving Repr, Inhabited, DecidableEq

namespace RuleEntry

/-- Everything that an entry says about its codes. -/
def actions (entry : RuleEntry) : Except DocumentError (List Action) := do
  let kinds ← match entry.opcode with
    | none => pure []
    | some name =>
      match Opcode.ofName? name with
      | some op => pure [Action.kind op]
      | none => throw (.unknownOpcode name)
  return kinds ++ (entry.shift.map Action.shift).toList ++
    (if entry.legacyCast then [.legacyCast] else []) ++
    (if entry.unused then [.unused] else [])

/-- The rule that an entry stands for. An entry that says nothing about its codes gives them their canonical
    kinds. -/
def rule (entry : RuleEntry) : Except DocumentError Rule := do
  let last := entry.last.getD entry.first
  if last < entry.first ∨ firstExtendedNative ≤ last.toNat then
    throw (.invalidRange entry.first last)
  match ← entry.actions with
  | [] => return ⟨entry.first, last, entry.window, .canonical⟩
  | [action] => return ⟨entry.first, last, entry.window, action⟩
  | _ => throw (.conflictingActions entry.first)

/-- Names of the fields of an entry; it has no others. -/
def fields : List String :=
  ["first", "last", "min_version", "max_version", "licensee", "opcode", "shift", "legacy_cast", "unused"]

/-- Reads an entry off a node. -/
def read (node : Yaml.Node) : Yaml.Read RuleEntry := do
  let entry ← node.record fields true
  let byte := fun (node : Yaml.Node) => UInt8.ofNat <$> node.nat Document.maxByte
  let word := Yaml.Node.nat Document.maxWord
  return {
    first := ← Yaml.required entry "first" byte
    last := ← Yaml.nullable entry "last" byte
    window := {
      minVersion := ← Yaml.nullable entry "min_version" word
      maxVersion := ← Yaml.nullable entry "max_version" word
      licensee := ← Yaml.nullable entry "licensee" word }
    opcode := ← Yaml.nullable entry "opcode" Yaml.Node.text
    shift := ← Yaml.nullable entry "shift" (Yaml.Node.int (-128) 127)
    legacyCast := ← Yaml.fieldD entry "legacy_cast" Yaml.Node.bool false
    unused := ← Yaml.fieldD entry "unused" Yaml.Node.bool false }

end RuleEntry

namespace Document

/-- Reads rules off a node; the first entry that is no rule decides the error. -/
def rules (node : Yaml.Node) : Except DocumentError (List Rule) := do
  (← ofNode (Yaml.Node.list RuleEntry.read) node).mapM RuleEntry.rule

/-- Reads rules off a text. -/
def rulesOfText : String → Except DocumentError (List Rule) := ofText rules

end Document

end ScriptBytecode
