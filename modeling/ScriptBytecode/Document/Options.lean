/-
Module: ScriptBytecode.Document.Options
Purpose: Layout options as documents write them. Every option may be left out.
Main exports: BraceStyle.text, BraceStyle.ofText?, Document.options, Document.optionsOfText
-/
import ScriptBytecode.Context
import ScriptBytecode.Document

namespace ScriptBytecode

namespace BraceStyle

/-- Name of a style in documents. -/
def text : BraceStyle → String
  | .sameLine => "SameLine"
  | .nextLine => "NextLine"

/-- Style with a name. -/
def ofText? (name : String) : Option BraceStyle :=
  [sameLine, nextLine].find? (·.text == name)

end BraceStyle

/-- Reads options off a node. -/
def Options.read (node : Yaml.Node) : Yaml.Read Options := do
  let fields ← node.record
    ["brace_style", "indent", "suppress_comments", "suppress_implicit_return", "initial_indent"] false
  let usual : Options := {}
  return {
    braceStyle :=
      ← Yaml.fieldD fields "brace_style" (Yaml.Node.variant BraceStyle.ofText?) usual.braceStyle
    indent := ← Yaml.fieldD fields "indent" Yaml.Node.text usual.indent
    suppressComments :=
      ← Yaml.fieldD fields "suppress_comments" Yaml.Node.bool usual.suppressComments
    suppressImplicitReturn :=
      ← Yaml.fieldD fields "suppress_implicit_return" Yaml.Node.bool usual.suppressImplicitReturn
    initialIndent :=
      ← Yaml.fieldD fields "initial_indent" (Yaml.Node.nat Document.maxQword) usual.initialIndent }

namespace Document

/-- Reads options off a node. -/
def options : Yaml.Node → Except DocumentError Options := ofNode Options.read

/-- Reads options off a text. -/
def optionsOfText : String → Except DocumentError Options := ofText options

end Document

end ScriptBytecode
