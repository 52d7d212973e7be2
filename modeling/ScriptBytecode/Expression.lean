/-
Module: ScriptBytecode.Expression
Purpose: Instructions as source expressions. An expression is written from its operands; besides its text it may
  leave a remark to append to the statement, and the last remark counts. An instruction that is no expression,
  or a call of something that is no function, cannot be written.
Main exports: RenderError, Vocabulary, Render, Operand, Instruction.expression
-/
import ScriptBytecode.Context
import ScriptBytecode.Decimal.Shortest
import ScriptBytecode.Instruction
import ScriptBytecode.Opcode.Cast
import ScriptBytecode.Symbol
import ScriptBytecode.Text.Quoted

namespace ScriptBytecode

/-- Why an instruction could not be written. -/
inductive RenderError where
  | unresolvedFunction (object : ObjectRef)
  | notAFunction (name : String)
  | unexpectedToken (opcode : Opcode)
  | missingSwitch
  | noInstructionAt (position : Nat)
deriving Repr, Inhabited, DecidableEq

namespace RenderError

/-- Name of the kind of error, as diagnostics give it. -/
def kind : RenderError → String
  | .unresolvedFunction _ => "UnresolvedFunction"
  | .notAFunction _ => "NotAFunction"
  | .unexpectedToken _ => "UnexpectedToken"
  | .missingSwitch => "MissingSwitch"
  | .noInstructionAt _ => "NoTokenAt"

/-- Text of an error. -/
def message : RenderError → String
  | .unresolvedFunction object =>
    s!"function object ObjectRef({object.index.toInt}) could not be resolved"
  | .notAFunction name => s!"{name} is not a function"
  | .unexpectedToken opcode => s!"{opcode.text} cannot appear here"
  | .missingSwitch => "case outside of a switch"
  | .noInstructionAt position => s!"no instruction at {Text.address position}"

/-- The comment that stands in for an instruction at a position. -/
def diagnostic (error : RenderError) (position : Nat) : String :=
  s!"// {error.kind} at 0x{Text.hexUpper 4 position}: {error.message}"

end RenderError

/-- What the text of an expression depends on besides its instruction. -/
structure Vocabulary where
  symbols : Symbols
  natives : NativeLookup
  /-- Format of the body; it decides what conversion codes mean. -/
  format : Format
  /-- Class that owns the body; calls of what another class declares start from that class. -/
  owner : Option String

/-- Native function of an ordinal. The symbols are asked last. -/
def Vocabulary.native (words : Vocabulary) : NativeLookup :=
  words.natives.orElse words.symbols.native

/-- Writes something; the state is the remark to append to the statement. -/
abbrev Render := EStateM RenderError (Option String)

/-- Leaves a remark, in place of any earlier one. -/
def Render.remark (text : String) : Render Unit := set (some text)

/-- An operand as a call sees it: its kind, its precedence if it is a binary operation, and its text in a
    scope. -/
structure Operand where
  opcode : Opcode
  precedence : Option Nat
  text : Scope → Render String

/-- Text of an instruction without operands. -/
def constantText : Opcode → String
  | .intZero => "0"
  | .intOne => "1"
  | .boolTrue => "true"
  | .boolFalse => "false"
  | .noObject | .emptyDelegate => "none"
  | .selfObject => "self"
  | .stop => "stop"
  | _ => ""

/-- The byte that a code without a meaning is shown as. -/
def Opcode.unknownCode (opcode : Opcode) (code : Code) : UInt8 :=
  match opcode with
  | .unknown byte => byte
  | _ => UInt8.ofNat (code.raw / 256)

/-- Name of a dynamic array method. -/
def arrayMethodName : Opcode → String
  | .dynArrayInsert => "Insert"
  | .dynArrayRemove => "Remove"
  | .dynArrayAdd => "Add"
  | .dynArrayAddItem => "AddItem"
  | .dynArrayRemoveItem => "RemoveItem"
  | .dynArrayInsertItem => "InsertItem"
  | .dynArraySort => "Sort"
  | _ => "Find"

/-- A literal for an object: its class and its name. -/
def Symbols.objectLiteral (symbols : Symbols) (object : ObjectRef) : String :=
  if object.isNone then "none"
  else
    match symbols.object object with
    | some info => s!"{info.className}'{info.name}'"
    | none => s!"Object#{object.index.toInt}"

/-- Drops empty texts at the end. -/
def trimTrailingEmpty (parts : List String) : List String :=
  (parts.reverse.dropWhile (·.isEmpty)).reverse

/-- Text of an operand that may be left out; placeholders are empty. -/
def optionalText (opcode : Opcode) (text : Render String) : Render String :=
  match opcode with
  | .nothing | .emptyParmValue | .noObject => return ""
  | _ => text

/-- Text of an argument; omitted ones are empty. Arguments stand in a scope of their own. -/
def Operand.argument (operand : Operand) : Render String :=
  match operand.opcode with
  | .nothing | .emptyParmValue => return ""
  | _ => operand.text {}

/-- An argument list. Omitted arguments keep their comma, except at the end. -/
def argumentsText (args : List Operand) : Render String := do
  return ", ".intercalate (trimTrailingEmpty (← args.mapM (·.argument)))

/-- An operand of an operator, in parentheses if it is a binary operation that `wraps` says binds too
    loosely. -/
def Operand.within (operand : Operand) (scope : Scope) (wraps : Nat → Bool) : Render String := do
  let text ← operand.text scope
  return if operand.precedence.any wraps then s!"({text})" else text

/-- A binary operation. Operations of one precedence associate to the left. -/
def binaryText (scope : Scope) (name : String) (precedence : Nat) (lhs rhs : Operand) :
    Render String := do
  let left ← lhs.within scope (precedence < ·)
  let right ← rhs.within scope (precedence ≤ ·)
  return s!"{left} {name} {right}"

/-- The name ends in an ASCII letter or digit, so a blank has to part it from a name. -/
def endsInWord (name : String) : Bool :=
  name.toList.getLast?.any (·.isAlphanum)

/-- A unary operation, before or after its operand. -/
def unaryText (scope : Scope) (name : String) (operand : Operand) (isBefore : Bool) :
    Render String := do
  let text ← operand.within scope fun _ => true
  let blank := if endsInWord name then " " else ""
  return if isBefore then s!"{name}{blank}{text}" else s!"{text}{blank}{name}"

/-- What calls in a scope start with. -/
def Scope.callStart (scope : Scope) : String := if scope.inClass then "static." else ""

/-- A call of a function object. Operators are written as operations if their arguments allow it. A function
    that another class than the owner declares, and that could be overridden, is called from its class. -/
def finalCallText (words : Vocabulary) (scope : Scope) (info : ObjectInfo) (args : List Operand) :
    Render String :=
  let function := info.function.getD {}
  if function.isOperator then
    match args with
    | [lhs, rhs] => binaryText scope info.name function.precedence lhs rhs
    | [operand] => unaryText scope info.name operand function.isPreOperator
    | _ => return s!"{info.name}({← argumentsText args})"
  else
    match info.outer, words.owner with
    | some outer, some owner =>
      if !scope.inContext && outer != owner && !function.bypassesOverrides then
        return s!"super({outer}).{info.name}({← argumentsText args})"
      else
        return s!"{scope.callStart}{info.name}({← argumentsText args})"
    | _, _ => return s!"{scope.callStart}{info.name}({← argumentsText args})"

/-- A call of a native function. -/
def nativeCallText (scope : Scope) (native : NativeFunction) (args : List Operand) :
    Render String :=
  match native.style, args with
  | .operator, [lhs, rhs] => binaryText scope native.name native.precedence lhs rhs
  | .preOperator, [operand] => unaryText scope native.name operand true
  | .postOperator, [operand] => unaryText scope native.name operand false
  | _, _ => return s!"{scope.callStart}{native.name}({← argumentsText args})"

/-- A call. -/
def callText (words : Vocabulary) (scope : Scope) (target : CallTarget) (args : List Operand) :
    Render String := do
  match target with
  | .virtual name =>
    return s!"{scope.callStart}{words.symbols.nameText name}({← argumentsText args})"
  | .global name => return s!"global.{words.symbols.nameText name}({← argumentsText args})"
  | .delegate _ _ name => return s!"{words.symbols.nameText name}({← argumentsText args})"
  | .final function =>
    match words.symbols.object function with
    | none => throw (.unresolvedFunction function)
    | some info =>
      if info.kind = .function then finalCallText words scope info args
      else throw (.notAFunction info.name)
  | .native ordinal =>
    match words.native ordinal with
    | some native => nativeCallText scope native args
    | none =>
      Render.remark s!"unresolved native {ordinal}"
      return s!"__native_{ordinal}({← argumentsText args})"

/-- Precedence of an instruction that is written as a binary operation. -/
def Instruction.binaryPrecedence (words : Vocabulary) : Instruction → Option Nat
  | ⟨_, _, _, _, _, _, token⟩ =>
    match token with
    | .call (.native ordinal) [_, _] =>
      ((words.native ordinal).filter (·.style == .operator)).map (·.precedence)
    | .call (.final function) [_, _] =>
      (((words.symbols.object function).bind (·.function)).filter (·.isOperator)).map (·.precedence)
    | .skip _ expr => expr.binaryPrecedence words
    | _ => none

mutual

/-- An instruction as a source expression. -/
def Instruction.expression (words : Vocabulary) : Instruction → Scope → Render String
  | ⟨code, opcode, _, _, _, _, token⟩, scope =>
    match token with
    | .noOperands => return constantText opcode
    | .variableRef object =>
      let name := words.symbols.objectText object
      return if opcode = .defaultVariable then s!"default.{name}" else name
    | .undefinedVariable => return "__undefined"
    | .boolVariable expr | .interfaceContext expr => expr.expression words scope
    | .instanceDelegate name | .delegateProperty name _ => return words.symbols.nameText name
    | .intConst value => return toString value.toInt
    | .floatConst value => return value.sourceText
    | .byteConst value => return toString value.toNat
    | .stringConst value => return Text.literal value
    | .nameConst name => return s!"'{words.symbols.nameText name}'"
    | .objectConst object => return words.symbols.objectLiteral object
    | .rotatorConst pitch yaw roll => return s!"rot({pitch.toInt},{yaw.toInt},{roll.toInt})"
    | .vectorConst x y z => return s!"vect({x.sourceText},{y.sourceText},{z.sourceText})"
    | .rangeConst low high => return s!"range({low.sourceText},{high.sourceText})"
    | .returnValue value => do
      let value ← value.expression words scope
      return if value.isEmpty then "return" else s!"return {value}"
    | .returnNothing _ => return "return"
    | .gotoLabel label => return s!"goto {← label.expression words scope}"
    | .assert _ _ condition => return s!"assert({← condition.expression words scope})"
    | .letValue target value => do
      let target ← target.expression words scope
      let value ← value.expression words scope
      return s!"{target} = {value}"
    | .eatReturnValue _ expr | .skip _ expr => expr.expression words scope
    | .context object _ _ _ member => do
      let object ← object.expression words scope
      let member ← member.expression words
        { inContext := true, inClass := scope.inClass || opcode == .classContext }
      return s!"{object}.{member}"
    | .structMember property _ _ object => do
      let object ← object.expression words scope
      return s!"{object}.{words.symbols.objectText property}"
    | .arrayElement index array => do
      let index ← index.expression words scope
      let array ← array.expression words scope
      return s!"{array}[{index}]"
    | .dynArrayLength array => return s!"{← array.expression words scope}.Length"
    | .dynArrayMethod array _ args => do
      let array ← array.expression words scope
      return s!"{array}.{arrayMethodName opcode}({← argumentsText (operandList words args)})"
    | .call target args => callText words scope target (operandList words args)
    | .primitiveCast cast interface expr => do
      let inner ← expr.expression words scope
      match interface with
      | some type => return s!"{words.symbols.objectText type}({inner})"
      | none =>
        match castTarget cast (!words.format.has .thirdLayout) with
        | some type => return s!"{type}({inner})"
        | none =>
          Render.remark s!"unknown cast 0x{Text.hexUpper 2 cast.toNat}"
          return inner
    | .classCast target expr => do
      let type := words.symbols.objectText target
      let inner ← expr.expression words scope
      return if opcode = .metaCast then s!"class<{type}>({inner})" else s!"{type}({inner})"
    | .structCmp _ lhs rhs => do
      let lhs ← lhs.expression words scope
      let rhs ← rhs.expression words scope
      return if opcode = .structCmpNe then s!"{lhs} != {rhs}" else s!"{lhs} == {rhs}"
    | .delegateCmp lhs rhs => do
      let lhs ← lhs.expression words scope
      let rhs ← rhs.expression words scope
      return if opcode = .delegateNe ∨ opcode = .delegateFunctionNe then s!"{lhs} != {rhs}"
        else s!"{lhs} == {rhs}"
    | .conditional condition _ yes _ no => do
      let condition ← condition.expression words scope
      let yes ← yes.expression words scope
      let no ← no.expression words scope
      return s!"({condition} ? {yes} : {no})"
    | .newObject outer name flags type template => do
      let outer ← optionalText outer.opcode (outer.expression words scope)
      let name ← optionalText name.opcode (name.expression words scope)
      let flags ← optionalText flags.opcode (flags.expression words scope)
      let parts := trimTrailingEmpty [outer, name, flags]
      let type ← type.expression words scope
      let template ← match template with
        | none => pure ""
        | some template => optionalText template.opcode (template.expression words scope)
      let listed := ", ".intercalate parts
      let settings := if parts.isEmpty then "" else s!"({listed})"
      let suffix := if template.isEmpty then "" else s!"({template})"
      return s!"new{settings} {type}{suffix}"
    | .unknown => return s!"/*@Unknown 0x{Text.hexUpper 2 (opcode.unknownCode code).toNat}*/"
    | .jump _ | .jumpIfNot _ _ | .filterEditorOnly _ | .switch _ _ _ | .caseLabel _ _
    | .iterator _ _ | .dynArrayIterator _ _ _ _ _ | .labelTable _ | .debugInfo _ _ _ _
    | .defaultParmValue _ _ => throw (.unexpectedToken opcode)

/-- Operands of a call. -/
def operandList (words : Vocabulary) : List Instruction → List Operand
  | [] => []
  | arg :: rest =>
    ⟨arg.opcode, arg.binaryPrecedence words, arg.expression words⟩ :: operandList words rest

end

end ScriptBytecode
