/-
Module: ScriptBytecode.Single
Purpose: Single-precision numbers as bytecode stores them: 32 bits with a sign, an exponent and a fraction.
  Bytecode is never computed with here, so a number is its bits and nothing is lost, not even the payload of
  a number that is none.
Main exports: Single, Single.Magnitude, Single.magnitude, Single.isNegative
-/

namespace ScriptBytecode

/-- A single-precision number, by its stored bits. -/
structure Single where
  bits : UInt32
deriving Repr, Inhabited, DecidableEq

/-- What the bits below the sign stand for. -/
inductive Single.Magnitude where
  /-- The finite number `mantissa * 2 ^ exponent`. -/
  | finite (mantissa : Nat) (exponent : Int)
  | infinite
  | notANumber
deriving Repr, Inhabited, DecidableEq

namespace Single

/-- The sign bit is set. -/
def isNegative (v : Single) : Bool := 0x80000000 ≤ v.bits.toNat

/-- The eight exponent bits. -/
def biasedExponent (v : Single) : Nat := v.bits.toNat / 0x800000 % 0x100

/-- The 23 fraction bits. -/
def fraction (v : Single) : Nat := v.bits.toNat % 0x800000

/-- Reads the bits below the sign. An exponent of zero marks the numbers without an implicit leading
    digit, an exponent of all ones the infinities and the values that are no numbers. -/
def magnitude (v : Single) : Magnitude :=
  if v.biasedExponent = 0xFF then
    if v.fraction = 0 then .infinite else .notANumber
  else if v.biasedExponent = 0 then
    .finite v.fraction (-149)
  else
    .finite (v.fraction + 0x800000) ((v.biasedExponent : Int) - 150)

end Single

end ScriptBytecode
