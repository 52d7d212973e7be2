/-
Module: ScriptBytecode.Opcode.Numbering
Purpose: The canonical numbering of instruction kinds, which is that of the newest layout; older layouts
  are described as changes to it. Two further kinds have a name but no canonical code.
Main exports: numbering, Opcode.canonical, Opcode.code?, Opcode.ofName?
-/
import ScriptBytecode.Opcode

namespace ScriptBytecode

/-- First code of the extended native band, and the number of codes below it. -/
def firstExtendedNative : Nat := 0x60

/-- First code that addresses a native function by itself. -/
def firstNative : Nat := 0x70

/-- Canonical code of each kind that has one, by increasing code. -/
def numbering : List (UInt8 × Opcode) := [
  (0x00, .localVariable),
  (0x01, .instanceVariable),
  (0x02, .defaultVariable),
  (0x03, .stateVariable),
  (0x04, .returnValue),
  (0x05, .switch),
  (0x06, .jump),
  (0x07, .jumpIfNot),
  (0x08, .stop),
  (0x09, .assert),
  (0x0A, .caseLabel),
  (0x0B, .nothing),
  (0x0C, .labelTable),
  (0x0D, .gotoLabel),
  (0x0E, .eatReturnValue),
  (0x0F, .letValue),
  (0x10, .dynArrayElement),
  (0x11, .newObject),
  (0x12, .classContext),
  (0x13, .metaCast),
  (0x14, .letBool),
  (0x15, .endParmValue),
  (0x16, .endFunctionParms),
  (0x17, .selfObject),
  (0x18, .skip),
  (0x19, .context),
  (0x1A, .arrayElement),
  (0x1B, .virtualFunction),
  (0x1C, .finalFunction),
  (0x1D, .intConst),
  (0x1E, .floatConst),
  (0x1F, .stringConst),
  (0x20, .objectConst),
  (0x21, .nameConst),
  (0x22, .rotatorConst),
  (0x23, .vectorConst),
  (0x24, .byteConst),
  (0x25, .intZero),
  (0x26, .intOne),
  (0x27, .boolTrue),
  (0x28, .boolFalse),
  (0x29, .nativeParm),
  (0x2A, .noObject),
  (0x2C, .intConstByte),
  (0x2D, .boolVariable),
  (0x2E, .dynamicCast),
  (0x2F, .iterator),
  (0x30, .iteratorPop),
  (0x31, .iteratorNext),
  (0x32, .structCmpEq),
  (0x33, .structCmpNe),
  (0x34, .unicodeStringConst),
  (0x35, .structMember),
  (0x36, .dynArrayLength),
  (0x37, .globalFunction),
  (0x38, .primitiveCast),
  (0x39, .dynArrayInsert),
  (0x3A, .returnNothing),
  (0x3B, .delegateEq),
  (0x3C, .delegateNe),
  (0x3D, .delegateFunctionEq),
  (0x3E, .delegateFunctionNe),
  (0x3F, .emptyDelegate),
  (0x40, .dynArrayRemove),
  (0x41, .debugInfo),
  (0x42, .delegateFunction),
  (0x43, .delegateProperty),
  (0x44, .letDelegate),
  (0x45, .conditional),
  (0x46, .dynArrayFind),
  (0x47, .dynArrayFindStruct),
  (0x48, .localOutVariable),
  (0x49, .defaultParmValue),
  (0x4A, .emptyParmValue),
  (0x4B, .instanceDelegate),
  (0x51, .interfaceContext),
  (0x52, .interfaceCast),
  (0x53, .endOfScript),
  (0x54, .dynArrayAdd),
  (0x55, .dynArrayAddItem),
  (0x56, .dynArrayRemoveItem),
  (0x57, .dynArrayInsertItem),
  (0x58, .dynArrayIterator),
  (0x59, .dynArraySort),
  (0x5A, .filterEditorOnly)]

/-- Kinds that only era rules and overrides can reach. -/
def unnumbered : List Opcode := [.undefinedVariable, .rangeConst]

namespace Opcode

/-- Kind at `code` in the canonical numbering. -/
def canonical (code : UInt8) : Opcode :=
  (numbering.lookup code).getD (.unknown code)

/-- Canonical code of a kind, if it has one. -/
def code? (op : Opcode) : Option UInt8 :=
  (numbering.find? (·.2 == op)).map (·.1)

/-- Kinds that can be named in a rule. -/
def named : List Opcode := numbering.map (·.2) ++ unnumbered

/-- Kind with a listing name; the case of ASCII letters does not matter. -/
def ofName? (name : String) : Option Opcode :=
  named.find? (·.name.map Char.toLower == name.map Char.toLower)

end Opcode

end ScriptBytecode
