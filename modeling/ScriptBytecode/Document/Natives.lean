/-
Module: ScriptBytecode.Document.Natives
Purpose: Tables of natives as documents write them: a mapping from ordinals to records.
Main exports: NativeStyle.text, NativeStyle.ofText?, Document.natives, Document.nativesOfText
-/
import ScriptBytecode.Document
import ScriptBytecode.Native

namespace ScriptBytecode

namespace NativeStyle

/-- Name of a style in documents. -/
def text : NativeStyle → String
  | .function => "Function"
  | .operator => "Operator"
  | .preOperator => "PreOperator"
  | .postOperator => "PostOperator"

/-- Style with a name. -/
def ofText? (name : String) : Option NativeStyle :=
  [function, operator, preOperator, postOperator].find? (·.text == name)

end NativeStyle

/-- Reads a native off a node. -/
def NativeFunction.read (node : Yaml.Node) : Yaml.Read NativeFunction := do
  let fields ← node.record ["name", "format", "precedence"] false
  return {
    name := ← Yaml.required fields "name" Yaml.Node.text
    style := ← Yaml.fieldD fields "format" (Yaml.Node.variant NativeStyle.ofText?) .function
    precedence := ← Yaml.fieldD fields "precedence" (Yaml.Node.nat Document.maxByte) 0 }

namespace Document

/-- Reads a table of natives off a node. Of entries with one ordinal the last one counts. -/
def natives (node : Yaml.Node) : Yaml.Read NativeTable := do
  let entries ← node.entries (Yaml.Node.nat maxWord) NativeFunction.read
  return Std.TreeMap.ofList entries

/-- Reads a table of natives off a text. Every ordinal has to be one that some code addresses. -/
def nativesOfText : String → Except DocumentError NativeTable :=
  ofText fun node => do
    let table ← ofNode natives node
    match table.unreachable? with
    | some ordinal => throw (.invalidNativeOrdinal ordinal)
    | none => return table

end Document

end ScriptBytecode
