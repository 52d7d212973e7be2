/-
Module: ScriptBytecode.Text.Utf16
Purpose: Text from UTF-16 units. Two units in a row that form a pair give one character; a surrogate that is
  not part of a pair gives the replacement character, so every sequence of units has a text.
Main exports: decodeUnits
-/

namespace ScriptBytecode.Text

/-- First half of a surrogate pair. -/
def isLead (unit : UInt16) : Bool := 0xD800 ≤ unit && unit < 0xDC00

/-- Second half of a surrogate pair. -/
def isTrail (unit : UInt16) : Bool := 0xDC00 ≤ unit && unit < 0xE000

/-- The character that stands for what could not be read. -/
def replacement : Char := Char.ofNat 0xFFFD

/-- Character of a unit that is not part of a pair. -/
def lone (unit : UInt16) : Char :=
  if isLead unit || isTrail unit then replacement else Char.ofNat unit.toNat

/-- Character of a surrogate pair. -/
def paired (lead trail : UInt16) : Char :=
  Char.ofNat (0x10000 + (lead.toNat - 0xD800) * 0x400 + (trail.toNat - 0xDC00))

/-- Characters of a sequence of units. -/
def decodeUnits : List UInt16 → List Char
  | [] => []
  | [unit] => [lone unit]
  | first :: second :: rest =>
    if isLead first && isTrail second then paired first second :: decodeUnits rest
    else lone first :: decodeUnits (second :: rest)

end ScriptBytecode.Text
