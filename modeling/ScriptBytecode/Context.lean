/-
Module: ScriptBytecode.Context
Purpose: How recovered source is laid out, and the state that a layout leaves behind: indentation, comments that
  wait for a statement, and what surrounds an expression.
Main exports: BraceStyle, Options, Scope, Context
-/

namespace ScriptBytecode

/-- Where opening braces go. -/
inductive BraceStyle where
  /-- `if(a) {` -/
  | sameLine
  /-- The brace has a line of its own. -/
  | nextLine
deriving Repr, Inhabited, DecidableEq

/-- Layout options. -/
structure Options where
  braceStyle : BraceStyle := .nextLine
  /-- One unit of indentation. -/
  indent : String := "\t"
  /-- Leave out comments; diagnostics of errors are always kept. -/
  suppressComments : Bool := false
  /-- Leave out the `return;` that the compiler adds at the end. -/
  suppressImplicitReturn : Bool := true
  /-- Indentation of the first line. -/
  initialIndent : Nat := 0
deriving Repr, Inhabited, DecidableEq

/-- What surrounds an expression. -/
structure Scope where
  /-- The expression is the member of a context. -/
  inContext : Bool := false
  /-- The expression is the member of a class, so calls are static. -/
  inClass : Bool := false
deriving Repr, Inhabited, DecidableEq

/-- State of a layout. -/
structure Context where
  options : Options
  indent : Nat
  /-- Change of the indentation that takes effect before the next line. -/
  pendingIndent : Int := 0
  /-- Comment for the line before the current statement. -/
  preComment : Option String := none
  /-- Comment to append to the current statement. -/
  postComment : Option String := none
  /-- The current statement ends with a semicolon. -/
  needsTerminator : Bool := false
  scope : Scope := {}
deriving Repr, Inhabited, DecidableEq

namespace Context

/-- The state at the start of a layout. -/
def new (options : Options) : Context := { options, indent := options.initialIndent }

/-- Back to the start, with the same options. -/
def reset (context : Context) : Context := new context.options

/-- Lets a pending change of the indentation take effect. Indentation never goes below zero. -/
def applyPending (context : Context) : Context :=
  { context with
    indent := ((context.indent : Int) + context.pendingIndent).toNat
    pendingIndent := 0 }

/-- Adds to the pending change of the indentation. -/
def shift (context : Context) (delta : Int) : Context :=
  { context with pendingIndent := context.pendingIndent + delta }

/-- `levels` units of indentation. -/
def padding (context : Context) (levels : Nat) : String :=
  String.join (List.replicate levels context.options.indent)

/-- Indentation of a line. -/
def pad (context : Context) : String := context.padding context.indent

/-- Indentation of a label, one level further out. -/
def outdentedPad (context : Context) : String := context.padding (context.indent - 1)

end Context

end ScriptBytecode
