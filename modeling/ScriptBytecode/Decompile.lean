/-
Module: ScriptBytecode.Decompile
Purpose: From bytes to source text: decode a body, recover its source, lay it out.
Main exports: Package, Package.dialect, Package.vocabulary, Body.decompile, Body.renderAt, decompileSource
-/
import ScriptBytecode.Walk

namespace ScriptBytecode

/-- What is known about the package of a body. -/
structure Package where
  table : OpcodeTable
  natives : NativeLookup
  symbols : Symbols

namespace Package

/-- How bytes of the package are read. Natives that the symbols declare come after the given ones. -/
def dialect (package : Package) : Dialect where
  table := package.table
  natives := package.natives.orElse package.symbols.native
  names := package.symbols.name

/-- How expressions of a decoded body are written. -/
def vocabulary (package : Package) (body : Body) (owner : Option String) : Vocabulary where
  symbols := package.symbols
  natives := package.natives
  format := body.format
  owner := owner

end Package

namespace Body

/-- The setting of a walk over a body that starts in a layout state. -/
def setting (body : Body) (words : Vocabulary) (context : Context) : Setting where
  body := body
  words := words
  scope := context.scope
  suppressImplicitReturn := context.options.suppressImplicitReturn

/-- Source text of a body, starting in a layout state, and the state it leaves. -/
def decompile (body : Body) (words : Vocabulary) (context : Context) : String × Context :=
  context.layOut (body.setting words context).events

/-- The top-level instruction at a position as an expression. Only the comment to append can change in the
    layout state, and it does so even when the expression cannot be written. -/
def renderAt (body : Body) (words : Vocabulary) (context : Context) (position : Nat) :
    Except RenderError String × Context :=
  match body.at? position with
  | none => (.error (.noInstructionAt position), context)
  | some i =>
    match (i.expression words context.scope).run context.postComment with
    | .ok text remark => (.ok text, { context with postComment := remark })
    | .error error remark => (.error error, { context with postComment := remark })

end Body

/-- Decodes a body and writes its source in one go. -/
def decompileSource (package : Package) (source : Source) (options : Options) : String :=
  let body := source.decode package.dialect
  (body.decompile (package.vocabulary body none) (Context.new options)).1

end ScriptBytecode
