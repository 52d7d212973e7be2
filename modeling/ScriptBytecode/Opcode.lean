/-
Module: ScriptBytecode.Opcode
Purpose: The kinds of instruction, after a code has been resolved for a format. Kinds without data are
  the ones that the canonical numbering lists (two of them are reached by era rules only); kinds with data
  are those whose identity depends on the code itself.
Main exports: Opcode, Opcode.name, Opcode.text, Opcode.isJump, Opcode.isHidden, Opcode.isNative
-/
import ScriptBytecode.Text.Hex

namespace ScriptBytecode

/-- Kind of an instruction. -/
inductive Opcode where
  | localVariable
  | instanceVariable
  | defaultVariable
  | stateVariable
  | undefinedVariable
  | returnValue
  | switch
  | jump
  | jumpIfNot
  | stop
  | assert
  | caseLabel
  | nothing
  | labelTable
  | gotoLabel
  | eatReturnValue
  | letValue
  | dynArrayElement
  | newObject
  | classContext
  | metaCast
  | letBool
  | endParmValue
  | endFunctionParms
  | selfObject
  | skip
  | context
  | arrayElement
  | virtualFunction
  | finalFunction
  | intConst
  | floatConst
  | stringConst
  | objectConst
  | nameConst
  | rotatorConst
  | vectorConst
  | byteConst
  | intZero
  | intOne
  | boolTrue
  | boolFalse
  | nativeParm
  | noObject
  | intConstByte
  | boolVariable
  | dynamicCast
  | iterator
  | iteratorPop
  | iteratorNext
  | structCmpEq
  | structCmpNe
  | unicodeStringConst
  | rangeConst
  | structMember
  | dynArrayLength
  | globalFunction
  | primitiveCast
  | dynArrayInsert
  | returnNothing
  | delegateEq
  | delegateNe
  | delegateFunctionEq
  | delegateFunctionNe
  | emptyDelegate
  | dynArrayRemove
  | debugInfo
  | delegateFunction
  | delegateProperty
  | letDelegate
  | conditional
  | dynArrayFind
  | dynArrayFindStruct
  | localOutVariable
  | defaultParmValue
  | emptyParmValue
  | instanceDelegate
  | interfaceContext
  | interfaceCast
  | endOfScript
  | dynArrayAdd
  | dynArrayAddItem
  | dynArrayRemoveItem
  | dynArrayInsertItem
  | dynArrayIterator
  | dynArraySort
  | filterEditorOnly
  /-- Standalone conversion of the oldest layout; the code doubles as the cast code. -/
  | legacyCast (code : UInt8)
  /-- Call of a native function that some table knows. -/
  | native (ordinal : Nat)
  /-- Call of a native function that no table knows. -/
  | unresolvedNative (ordinal : Nat)
  /-- Code that has no meaning in the format. -/
  | unknown (code : UInt8)
deriving Repr, Inhabited, DecidableEq

namespace Opcode

/-- Listing name of a kind, without the data it carries. -/
def name : Opcode → String
  | .localVariable => "LocalVariable"
  | .instanceVariable => "InstanceVariable"
  | .defaultVariable => "DefaultVariable"
  | .stateVariable => "StateVariable"
  | .undefinedVariable => "UndefinedVariable"
  | .returnValue => "Return"
  | .switch => "Switch"
  | .jump => "Jump"
  | .jumpIfNot => "JumpIfNot"
  | .stop => "Stop"
  | .assert => "Assert"
  | .caseLabel => "Case"
  | .nothing => "Nothing"
  | .labelTable => "LabelTable"
  | .gotoLabel => "GotoLabel"
  | .eatReturnValue => "EatReturnValue"
  | .letValue => "Let"
  | .dynArrayElement => "DynArrayElement"
  | .newObject => "New"
  | .classContext => "ClassContext"
  | .metaCast => "MetaCast"
  | .letBool => "LetBool"
  | .endParmValue => "EndParmValue"
  | .endFunctionParms => "EndFunctionParms"
  | .selfObject => "Self"
  | .skip => "Skip"
  | .context => "Context"
  | .arrayElement => "ArrayElement"
  | .virtualFunction => "VirtualFunction"
  | .finalFunction => "FinalFunction"
  | .intConst => "IntConst"
  | .floatConst => "FloatConst"
  | .stringConst => "StringConst"
  | .objectConst => "ObjectConst"
  | .nameConst => "NameConst"
  | .rotatorConst => "RotatorConst"
  | .vectorConst => "VectorConst"
  | .byteConst => "ByteConst"
  | .intZero => "IntZero"
  | .intOne => "IntOne"
  | .boolTrue => "True"
  | .boolFalse => "False"
  | .nativeParm => "NativeParm"
  | .noObject => "NoObject"
  | .intConstByte => "IntConstByte"
  | .boolVariable => "BoolVariable"
  | .dynamicCast => "DynamicCast"
  | .iterator => "Iterator"
  | .iteratorPop => "IteratorPop"
  | .iteratorNext => "IteratorNext"
  | .structCmpEq => "StructCmpEq"
  | .structCmpNe => "StructCmpNe"
  | .unicodeStringConst => "UnicodeStringConst"
  | .rangeConst => "RangeConst"
  | .structMember => "StructMember"
  | .dynArrayLength => "DynArrayLength"
  | .globalFunction => "GlobalFunction"
  | .primitiveCast => "PrimitiveCast"
  | .dynArrayInsert => "DynArrayInsert"
  | .returnNothing => "ReturnNothing"
  | .delegateEq => "EqualEqual_DelDel"
  | .delegateNe => "NotEqual_DelDel"
  | .delegateFunctionEq => "EqualEqual_DelFunc"
  | .delegateFunctionNe => "NotEqual_DelFunc"
  | .emptyDelegate => "EmptyDelegate"
  | .dynArrayRemove => "DynArrayRemove"
  | .debugInfo => "DebugInfo"
  | .delegateFunction => "DelegateFunction"
  | .delegateProperty => "DelegateProperty"
  | .letDelegate => "LetDelegate"
  | .conditional => "Conditional"
  | .dynArrayFind => "DynArrayFind"
  | .dynArrayFindStruct => "DynArrayFindStruct"
  | .localOutVariable => "LocalOutVariable"
  | .defaultParmValue => "DefaultParmValue"
  | .emptyParmValue => "EmptyParmValue"
  | .instanceDelegate => "InstanceDelegate"
  | .interfaceContext => "InterfaceContext"
  | .interfaceCast => "InterfaceCast"
  | .endOfScript => "EndOfScript"
  | .dynArrayAdd => "DynArrayAdd"
  | .dynArrayAddItem => "DynArrayAddItem"
  | .dynArrayRemoveItem => "DynArrayRemoveItem"
  | .dynArrayInsertItem => "DynArrayInsertItem"
  | .dynArrayIterator => "DynArrayIterator"
  | .dynArraySort => "DynArraySort"
  | .filterEditorOnly => "FilterEditorOnly"
  | .legacyCast _ => "LegacyCast"
  | .native _ => "NativeFunction"
  | .unresolvedNative _ => "UnresolvedNative"
  | .unknown _ => "Unknown"

/-- Listing text of a kind, with the data it carries: `LegacyCast(0x39)`, `Native(146)`. -/
def text : Opcode → String
  | .legacyCast code => s!"LegacyCast({Text.codeByte code.toNat})"
  | .native ordinal => s!"Native({ordinal})"
  | .unresolvedNative ordinal => s!"UnresolvedNative({ordinal})"
  | .unknown code => s!"Unknown({Text.codeByte code.toNat})"
  | op => op.name

/-- Kinds that carry an address of the code. -/
def isJump : Opcode → Bool
  | .jump | .jumpIfNot | .caseLabel | .iterator | .dynArrayIterator | .filterEditorOnly => true
  | _ => false

/-- Kinds that never contribute to source text. -/
def isHidden : Opcode → Bool
  | .debugInfo => true
  | _ => false

/-- Calls addressed by a native ordinal. -/
def isNative : Opcode → Bool
  | .native _ | .unresolvedNative _ => true
  | _ => false

end Opcode

end ScriptBytecode
