/-
Module: ScriptBytecode.Document.Symbols
Purpose: Tables of symbols as documents write them: a list of names, a mapping from object indices to records, and a
  table of natives.
Main exports: ObjectKind.text, ObjectKind.ofText?, Document.symbols, Document.symbolsOfText
-/
import ScriptBytecode.Document.Natives
import ScriptBytecode.Symbol.Table

namespace ScriptBytecode

namespace ObjectKind

/-- Name of a kind in documents. -/
def text : ObjectKind → String
  | .property => "property"
  | .function => "function"
  | .classType => "class"
  | .structType => "struct"
  | .state => "state"
  | .enumType => "enum"
  | .constant => "const"
  | .other => "other"

/-- Kind with a name. -/
def ofText? (name : String) : Option ObjectKind :=
  [property, function, classType, structType, state, enumType, constant, other].find? (·.text == name)

end ObjectKind

/-- Reads an object off a node. -/
def ObjectEntry.read (node : Yaml.Node) : Yaml.Read ObjectEntry := do
  let fields ← node.record
    ["name", "class", "outer", "kind", "flags", "native", "precedence"] false
  let flags ← Yaml.fieldD fields "flags" (Yaml.Node.nat Document.maxDword) 0
  return {
    name := ← Yaml.required fields "name" Yaml.Node.text
    className := ← Yaml.fieldD fields "class" Yaml.Node.text ""
    outer := ← Yaml.nullable fields "outer" Yaml.Node.text
    kind := ← Yaml.fieldD fields "kind" (Yaml.Node.variant ObjectKind.ofText?) .property
    flags := UInt32.ofNat flags
    native := ← Yaml.fieldD fields "native" (Yaml.Node.nat Document.maxWord) 0
    precedence := ← Yaml.fieldD fields "precedence" (Yaml.Node.nat Document.maxByte) 0 }

/-- Reads a table of symbols off a node. -/
def SymbolTable.read (node : Yaml.Node) : Yaml.Read SymbolTable := do
  let fields ← node.record ["names", "objects", "natives"] false
  let index := Yaml.Node.int (-0x80000000) 0x7FFFFFFF
  let names ← Yaml.fieldD fields "names" (Yaml.Node.list Yaml.Node.text) []
  let objects ← Yaml.fieldD fields "objects" (Yaml.Node.entries index ObjectEntry.read) []
  let natives ← Yaml.fieldD fields "natives" Document.natives {}
  return { names := names.toArray, objects := Std.TreeMap.ofList objects, natives }

namespace Document

/-- Reads a table of symbols off a node. -/
def symbols : Yaml.Node → Except DocumentError SymbolTable := ofNode SymbolTable.read

/-- Reads a table of symbols off a text. -/
def symbolsOfText : String → Except DocumentError SymbolTable := ofText symbols

end Document

end ScriptBytecode
