/-
Module: ScriptBytecode.Text.Hex
Purpose: Padded text columns and fixed-width hexadecimal numbers, as used by listings, labels and
  diagnostics.
Main exports: padLeft, padRight, hex, hexUpper, address
-/

namespace ScriptBytecode.Text

/-- Pads `s` on the left with `fill` to at least `width` characters. -/
def padLeft (width : Nat) (fill : Char) (s : String) : String :=
  String.ofList (List.replicate (width - s.length) fill) ++ s

/-- Pads `s` on the right with `fill` to at least `width` characters. -/
def padRight (width : Nat) (fill : Char) (s : String) : String :=
  s ++ String.ofList (List.replicate (width - s.length) fill)

/-- Lower-case hexadecimal digits of `n`, at least `width` of them. -/
def hex (width n : Nat) : String :=
  padLeft width '0' (String.ofList (Nat.toDigits 16 n))

/-- Upper-case hexadecimal digits of `n`, at least `width` of them. -/
def hexUpper (width n : Nat) : String :=
  padLeft width '0' (String.ofList ((Nat.toDigits 16 n).map Char.toUpper))

/-- A code byte in prose: `0x2b`. -/
def codeByte (n : Nat) : String := "0x" ++ hex 2 n

/-- An address in prose: `0x001c`. -/
def address (n : Nat) : String := "0x" ++ hex 4 n

end ScriptBytecode.Text
