/-
Module: ScriptBytecode.Layout
Purpose: Operand layouts. What follows an instruction code is described by a `Layout`: a value that says which
  field comes next and how the fields read so far decide what comes after it. A layout says nothing about
  bytes or addresses; `ScriptBytecode.Decoder` reads one, field by field.
Main exports: Field, Field.Value, Layout, layout
-/
import ScriptBytecode.Instruction
import ScriptBytecode.Opcode.Cast

namespace ScriptBytecode

/-- One stored part of an instruction. -/
inductive Field where
  | byte
  | word
  | int
  | single
  /-- Single-byte characters up to a zero byte. -/
  | ansiString
  /-- UTF-16 units up to a zero unit. -/
  | wideString
  | name
  | object
  /-- A nested instruction. -/
  | operand
  /-- Nested instructions up to one of the given kind, which is dropped. -/
  | operandsUntil (terminator : Opcode)
  /-- Label table entries up to the terminating one, which is dropped. -/
  | labels
  /-- An end-of-parameters instruction that may be left out. -/
  | optionalTerminator
deriving Repr, DecidableEq

/-- What a field holds. -/
@[reducible] def Field.Value : Field → Type
  | .byte => UInt8
  | .word => UInt16
  | .int => Int32
  | .single => Single
  | .ansiString | .wideString => String
  | .name => NameRef
  | .object => ObjectRef
  | .operand => Instruction
  | .operandsUntil _ => List Instruction
  | .labels => List LabelEntry
  | .optionalTerminator => Unit

/-- The fields that make up a value of type `α`, in storage order. -/
inductive Layout (α : Type) where
  /-- Nothing is left to read. -/
  | done (value : α)
  /-- A field comes next, and what it holds decides what follows. -/
  | read (field : Field) (next : field.Value → Layout α)

namespace Layout

variable {α β : Type}

/-- One layout after another. -/
def bind : Layout α → (α → Layout β) → Layout β
  | .done value, rest => rest value
  | .read field next, rest => .read field fun value => (next value).bind rest

instance : Monad Layout where
  pure := done
  bind := bind

def byte : Layout UInt8 := .read .byte .done
def word : Layout UInt16 := .read .word .done
def int : Layout Int32 := .read .int .done
def single : Layout Single := .read .single .done
def ansiString : Layout String := .read .ansiString .done
def wideString : Layout String := .read .wideString .done
def name : Layout NameRef := .read .name .done
def object : Layout ObjectRef := .read .object .done
def operand : Layout Instruction := .read .operand .done
def operandsUntil (terminator : Opcode) : Layout (List Instruction) := .read (.operandsUntil terminator) .done
def labels : Layout (List LabelEntry) := .read .labels .done
def optionalTerminator : Layout Unit := .read .optionalTerminator .done

/-- A part that is stored only when a condition holds. -/
def given (condition : Bool) (part : Layout α) : Layout (Option α) :=
  if condition then return some (← part) else return none

/-- A call: its arguments follow the callee, up to the end of parameters. -/
def call (target : CallTarget) : Layout (Token Instruction) :=
  return .call target (← operandsUntil .endFunctionParms)

end Layout

open Layout in
/-- Layout of the operands of each kind in a format. -/
def layout (format : Format) (opcode : Opcode) : Layout (Token Instruction) :=
  match opcode with
  | .localVariable | .instanceVariable | .defaultVariable | .stateVariable | .localOutVariable
  | .nativeParm =>
    return .variableRef (← object)
  | .undefinedVariable => return .undefinedVariable
  | .boolVariable => return .boolVariable (← operand)
  | .instanceDelegate => return .instanceDelegate (← name)
  | .delegateProperty => do
    let name ← name
    let property ← given (format.has .delegateProperty) object
    return .delegateProperty name property
  | .defaultParmValue => do
    let size ← word
    let statements ← operandsUntil .endParmValue
    return .defaultParmValue size statements
  | .intConst => return .intConst (← int)
  | .floatConst => return .floatConst (← single)
  | .byteConst | .intConstByte => return .byteConst (← byte)
  | .stringConst => return .stringConst (← ansiString)
  | .unicodeStringConst => return .stringConst (← wideString)
  | .nameConst => return .nameConst (← name)
  | .objectConst => return .objectConst (← object)
  | .rotatorConst => do
    let pitch ← int
    let yaw ← int
    let roll ← int
    return .rotatorConst pitch yaw roll
  | .vectorConst => do
    let x ← single
    let y ← single
    let z ← single
    return .vectorConst x y z
  | .rangeConst => do
    let low ← single
    let high ← single
    return .rangeConst low high
  | .returnValue => return .returnValue (← operand)
  | .returnNothing => return .returnNothing (← object)
  | .jump => return .jump (← word)
  | .jumpIfNot => do
    let target ← word
    let condition ← operand
    return .jumpIfNot target condition
  | .filterEditorOnly => return .filterEditorOnly (← word)
  | .switch => do
    let property ← given (format.has .switchProperty) object
    let size ← byte
    let value ← operand
    return .switch property size value
  | .caseLabel => do
    let target ← word
    let value ← given (target != defaultCaseTarget) operand
    return .caseLabel target value
  | .iterator => do
    let expr ← operand
    let stop ← word
    return .iterator expr stop
  | .dynArrayIterator => do
    let array ← operand
    let item ← operand
    let withIndex ← byte
    let index ← operand
    let stop ← word
    return .dynArrayIterator array item (withIndex != 0) index stop
  | .gotoLabel => return .gotoLabel (← operand)
  | .labelTable => return .labelTable (← labels)
  | .assert => do
    let line ← word
    let mode ← given (format.has .assertMode) byte
    let condition ← operand
    return .assert line mode condition
  | .debugInfo => do
    let version ← int
    let line ← int
    let column ← int
    let mode ← byte
    return .debugInfo version line column mode
  | .letValue | .letBool | .letDelegate => do
    let target ← operand
    let value ← operand
    return .letValue target value
  | .eatReturnValue => do
    let property ← object
    let expr ← operand
    return .eatReturnValue property expr
  | .skip => do
    let size ← word
    let expr ← operand
    return .skip size expr
  | .context | .classContext => do
    let subject ← operand
    let skip ← word
    let field ← given (format.has .thirdLayout) object
    let fieldSize ← byte
    let member ← operand
    return .context subject skip field fieldSize member
  | .interfaceContext => return .interfaceContext (← operand)
  | .structMember => do
    let property ← object
    let owner ← given (format.has .structOwner) object
    let flags ← given (format.has .structFlags) do
      let first ← byte
      let second ← byte
      return (first, second)
    let subject ← operand
    return .structMember property owner flags subject
  | .arrayElement | .dynArrayElement => do
    let index ← operand
    let array ← operand
    return .arrayElement index array
  | .dynArrayLength => return .dynArrayLength (← operand)
  | .dynArrayInsert | .dynArrayRemove => do
    let array ← operand
    let first ← operand
    let second ← operand
    if format.has .arrayTerminator then optionalTerminator
    return .dynArrayMethod array none [first, second]
  | .dynArrayAdd => do
    let array ← operand
    let count ← operand
    if format.has .arrayTerminator then optionalTerminator
    return .dynArrayMethod array none [count]
  | .dynArrayAddItem | .dynArrayRemoveItem | .dynArrayInsertItem | .dynArrayFind
  | .dynArrayFindStruct | .dynArraySort => do
    let array ← operand
    let skip ← word
    let args ← operandsUntil .endFunctionParms
    return .dynArrayMethod array (some skip) args
  | .virtualFunction => do call (.virtual (← name))
  | .finalFunction => do call (.final (← object))
  | .globalFunction => do call (.global (← name))
  | .delegateFunction => do
    let isLocal ← given (format.has .delegateLocality) byte
    let property ← object
    let name ← name
    call (.delegate (isLocal.any (· != 0)) property name)
  | .native ordinal | .unresolvedNative ordinal => call (.native ordinal)
  | .primitiveCast => do
    let cast ← byte
    let interface ← given (cast == objectToInterface && format.has .thirdLayout) object
    let expr ← operand
    return .primitiveCast cast interface expr
  | .legacyCast cast => return .primitiveCast cast none (← operand)
  | .dynamicCast | .metaCast | .interfaceCast => do
    let target ← object
    let expr ← operand
    return .classCast target expr
  | .structCmpEq | .structCmpNe => do
    let type ← object
    let lhs ← operand
    let rhs ← operand
    return .structCmp type lhs rhs
  | .delegateEq | .delegateNe | .delegateFunctionEq | .delegateFunctionNe => do
    let lhs ← operand
    let rhs ← operand
    optionalTerminator
    return .delegateCmp lhs rhs
  | .conditional => do
    let condition ← operand
    let yesSkip ← word
    let yes ← operand
    let noSkip ← word
    let no ← operand
    return .conditional condition yesSkip yes noSkip no
  | .newObject => do
    let outer ← operand
    let name ← operand
    let flags ← operand
    let type ← operand
    let template ← given (format.has .newTemplate) operand
    return .newObject outer name flags type template
  | .intZero | .intOne | .boolTrue | .boolFalse | .noObject | .selfObject | .emptyDelegate
  | .iteratorNext | .iteratorPop | .stop | .nothing | .endOfScript | .endFunctionParms
  | .endParmValue | .emptyParmValue =>
    return .noOperands
  | .unknown _ => return .unknown

end ScriptBytecode
