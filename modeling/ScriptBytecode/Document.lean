/-
Module: ScriptBytecode.Document
Purpose: What can be wrong with a document that extends the library: a list of opcode rules, a table of natives, a
  table of symbols or a set of layout options.
Main exports: DocumentError, DocumentError.message, Document.ofNode, Document.ofText
-/
import ScriptBytecode.Text.Hex
import ScriptBytecode.Yaml.Parse
import ScriptBytecode.Yaml.Read

namespace ScriptBytecode

/-- Why a document was refused. -/
inductive DocumentError where
  /-- A rule for a range of codes that is empty or leaves the plain codes. -/
  | invalidRange (first last : UInt8)
  | unknownOpcode (name : String)
  /-- The rule that starts at a code says more than one thing about it. -/
  | conflictingActions (first : UInt8)
  /-- A native that no code can address. -/
  | invalidNativeOrdinal (ordinal : Nat)
  /-- The text is not YAML, or not of the expected shape. -/
  | malformed
deriving Repr, Inhabited, DecidableEq

/-- Text of an error. -/
def DocumentError.message : DocumentError → String
  | .invalidRange first last =>
    s!"invalid code range {Text.codeByte first.toNat}..={Text.codeByte last.toNat}"
  | .unknownOpcode name => s!"unknown opcode name: {name}"
  | .conflictingActions first =>
    s!"rule at {Text.codeByte first.toNat} names more than one action"
  | .invalidNativeOrdinal ordinal => s!"native ordinal {ordinal} is outside the native range"
  | .malformed => "YAML error: malformed document"

namespace Document

/-- Reads a value off a node, or refuses the document. -/
def ofNode {α : Type} (read : Yaml.Node → Yaml.Read α) (node : Yaml.Node) :
    Except DocumentError α :=
  match node.read? read with
  | some value => .ok value
  | none => .error .malformed

/-- Reads a value off a text. A text without a node counts as nothing. -/
def ofText {α : Type} (read : Yaml.Node → Except DocumentError α) (text : String) :
    Except DocumentError α :=
  match Yaml.parse text with
  | some node? => read (node?.getD .nothing)
  | none => .error .malformed

/-- Largest values of the numbers in documents. -/
def maxByte : Nat := 0xFF

@[inherit_doc maxByte]
def maxWord : Nat := 0xFFFF

@[inherit_doc maxByte]
def maxDword : Nat := 0xFFFFFFFF

@[inherit_doc maxByte]
def maxQword : Nat := 0xFFFFFFFFFFFFFFFF

end Document

end ScriptBytecode
