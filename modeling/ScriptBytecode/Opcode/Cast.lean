/-
Module: ScriptBytecode.Opcode.Cast
Purpose: The types that conversion codes convert to. A conversion code is the byte after a primitive cast
  instruction, or the code of a standalone conversion of the oldest layout.
Main exports: objectToInterface, castTarget
-/

namespace ScriptBytecode

/-- Conversion of an object to an interface; from the third layout on it carries the interface. -/
def objectToInterface : UInt8 := 0x46

/-- Source-level type that a conversion code converts to. `legacy` says that the format is older than the
    third layout, where two codes differ. -/
def castTarget (cast : UInt8) (legacy : Bool) : Option String :=
  match cast.toNat with
  | 0x36 => some "Object"
  | 0x37 => some "string"
  | 0x38 => some "bool"
  | 0x39 => some "vector"
  | 0x3A => some "int"
  | 0x3B => some "bool"
  | 0x3C => some "float"
  | 0x3D => some "byte"
  | 0x3E => some "bool"
  | 0x3F => some "float"
  | 0x40 => some "byte"
  | 0x41 => some "int"
  | 0x42 => some "float"
  | 0x43 => some "byte"
  | 0x44 => some "int"
  | 0x45 => some "bool"
  | 0x46 => if legacy then some "name" else none
  | 0x47 | 0x48 => some "bool"
  | 0x49 => some "byte"
  | 0x4A => some "int"
  | 0x4B => some "bool"
  | 0x4C => some "float"
  | 0x4D => some "vector"
  | 0x4E => some "rotator"
  | 0x4F => some "bool"
  | 0x50 => some "rotator"
  | 0x51 => some "bool"
  | 0x60 => if legacy then none else some "name"
  | code => if 0x52 ≤ code ∧ code ≤ 0x5A then some "string" else none

end ScriptBytecode
