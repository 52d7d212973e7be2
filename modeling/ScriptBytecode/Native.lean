/-
Module: ScriptBytecode.Native
Purpose: Native functions, which the engine provides and bytecode calls by ordinal, and tables of them.
  The rest of the library only asks a table what an ordinal stands for, so it works with `NativeLookup`.
Main exports: NativeStyle, NativeFunction, NativeTable, NativeTable.core, NativeLookup
-/
import Std.Data.TreeMap

namespace ScriptBytecode

/-- How a call of a native function is written in source. -/
inductive NativeStyle where
  | function
  | operator
  | preOperator
  | postOperator
deriving Repr, Inhabited, DecidableEq

/-- What is known about one native function. The precedence is that of a binary operator; a larger number
    binds looser. -/
structure NativeFunction where
  name : String
  style : NativeStyle := .function
  precedence : Nat := 0
deriving Repr, Inhabited, DecidableEq

namespace NativeFunction

/-- A native called by name. -/
def function (name : String) : NativeFunction := { name }

/-- A binary operator. -/
def operator (name : String) (precedence : Nat) : NativeFunction :=
  { name, style := .operator, precedence }

/-- A unary operator written before its operand. -/
def preOperator (name : String) : NativeFunction :=
  { name, style := .preOperator }

/-- A unary operator written after its operand. -/
def postOperator (name : String) : NativeFunction :=
  { name, style := .postOperator }

end NativeFunction

/-- Natives by ordinal, as far as somebody knows them. -/
abbrev NativeLookup := Nat → Option NativeFunction

namespace NativeLookup

/-- Knows no native. -/
def empty : NativeLookup := fun _ => none

/-- Asks `primary` first, then `fallback`. -/
def orElse (primary fallback : NativeLookup) : NativeLookup :=
  fun ordinal => (primary ordinal).or (fallback ordinal)

end NativeLookup

/-- Natives keyed by ordinal. -/
abbrev NativeTable := Std.TreeMap Nat NativeFunction

namespace NativeTable

/-- Largest ordinal that an extended native code can address. -/
def maxOrdinal : Nat := 0x0FFF

/-- Lays the entries of `other` over this table. -/
def merge (table other : NativeTable) : NativeTable :=
  table.insertMany other.toList

/-- The table as a lookup. -/
def lookup (table : NativeTable) : NativeLookup := fun ordinal => table[ordinal]?

/-- First ordinal that no code can address, if there is one. -/
def unreachable? (table : NativeTable) : Option Nat :=
  table.keys.find? (maxOrdinal < ·)

/-- Core operator and math natives, shared by every engine generation. -/
def coreEntries : List (Nat × NativeFunction) := [
  (112, .operator "$" 40),
  (129, .preOperator "!"),
  (130, .operator "&&" 30),
  (131, .operator "^^" 30),
  (132, .operator "||" 32),
  (133, .operator "*=" 34),
  (134, .operator "/=" 34),
  (135, .operator "+=" 34),
  (136, .operator "-=" 34),
  (137, .preOperator "++"),
  (138, .preOperator "--"),
  (139, .postOperator "++"),
  (140, .postOperator "--"),
  (141, .preOperator "~"),
  (143, .preOperator "-"),
  (144, .operator "*" 16),
  (145, .operator "/" 16),
  (146, .operator "+" 20),
  (147, .operator "-" 20),
  (148, .operator "<<" 22),
  (149, .operator ">>" 22),
  (150, .operator "<" 24),
  (151, .operator ">" 24),
  (152, .operator "<=" 24),
  (153, .operator ">=" 24),
  (154, .operator "==" 24),
  (155, .operator "!=" 26),
  (156, .operator "&" 28),
  (157, .operator "^" 28),
  (158, .operator "|" 28),
  (159, .operator "*=" 34),
  (160, .operator "/=" 34),
  (161, .operator "+=" 34),
  (162, .operator "-=" 34),
  (163, .preOperator "++"),
  (164, .preOperator "--"),
  (165, .postOperator "++"),
  (166, .postOperator "--"),
  (167, .function "Rand"),
  (168, .operator "@" 40),
  (169, .preOperator "-"),
  (170, .operator "**" 12),
  (171, .operator "*" 16),
  (172, .operator "/" 16),
  (173, .operator "%" 18),
  (174, .operator "+" 20),
  (175, .operator "-" 20),
  (176, .operator "<" 24),
  (177, .operator ">" 24),
  (178, .operator "<=" 24),
  (179, .operator ">=" 24),
  (180, .operator "==" 24),
  (181, .operator "!=" 26),
  (182, .operator "*=" 34),
  (183, .operator "/=" 34),
  (184, .operator "+=" 34),
  (185, .operator "-=" 34),
  (186, .function "Abs"),
  (187, .function "Sin"),
  (188, .function "Cos"),
  (189, .function "Tan"),
  (190, .function "Atan"),
  (191, .function "Exp"),
  (192, .function "Loge"),
  (193, .function "Sqrt"),
  (194, .function "Square"),
  (195, .function "FRand"),
  (196, .operator ">>>" 22),
  (242, .operator "==" 24),
  (243, .operator "!=" 26)]

/-- Table of the core natives. -/
def core : NativeTable := Std.TreeMap.ofList coreEntries

end NativeTable

end ScriptBytecode
