/-
Module: ScriptBytecode.OpcodeTable
Purpose: The kinds of all plain codes in one format, computed once from the rules, and the resolution of
  stored codes, which also covers native calls. A native call is coded by one byte from `0x70` on, or by a
  byte of the extended band `0x60..0x6F` and a second byte.
Main exports: OpcodeTable, OpcodeTable.ofRules, OpcodeTable.lookup, Code, OpcodeTable.resolve
-/
import ScriptBytecode.Native
import ScriptBytecode.Rule

namespace ScriptBytecode

/-- Kinds of the plain codes in one format. -/
structure OpcodeTable where
  format : Format
  entries : Vector Opcode firstExtendedNative

/-- Instruction code as it is stored: its first byte and, if one was read, the byte after it. -/
structure Code where
  first : UInt8
  extension : Option UInt8 := none
deriving Repr, Inhabited, DecidableEq

namespace Code

/-- A first byte that heads an extended native call and needs one more byte. -/
def needsExtension (first : UInt8) : Bool :=
  firstExtendedNative ≤ first.toNat && first.toNat < firstNative

/-- Native ordinal that a code addresses. -/
def ordinal? (code : Code) : Option Nat :=
  if firstNative ≤ code.first.toNat then
    some code.first.toNat
  else if needsExtension code.first then
    code.extension.map fun next => (code.first.toNat - firstExtendedNative) * 256 + next.toNat
  else
    none

/-- The code as one number: both bytes when the second was read. -/
def raw (code : Code) : Nat :=
  match code.extension with
  | none => code.first.toNat
  | some next => code.first.toNat * 256 + next.toNat

end Code

namespace OpcodeTable

/-- The table in which no code has a meaning. -/
def blank : Vector Opcode firstExtendedNative :=
  Vector.ofFn fun code => .unknown (UInt8.ofNat code.val)

/-- Enters one rule: the codes that it covers get the kinds that it gives them. -/
def enter (entries : Vector Opcode firstExtendedNative) (rule : Rule) :
    Vector Opcode firstExtendedNative :=
  Vector.ofFn fun code =>
    if rule.covers (UInt8.ofNat code.val) then rule.apply (UInt8.ofNat code.val)
    else entries[code]

/-- Table of a format, with the overrides of an engine branch after the era rules. -/
def ofRules (format : Format) (overrides : List Rule) : OpcodeTable where
  format := format
  entries := ((eraRules ++ overrides).filter (·.window.admits format)).foldl enter blank

/-- Table of a format with the era rules only. -/
def ofFormat (format : Format) : OpcodeTable := ofRules format []

/-- Kind of a plain code. -/
def lookup (table : OpcodeTable) (code : UInt8) : Opcode :=
  if h : code.toNat < firstExtendedNative then table.entries[code.toNat] else .unknown code

/-- Kind of a stored code. Native calls that no table knows, and codes without a meaning, get a kind of
    their own, so every code has one. -/
def resolve (table : OpcodeTable) (natives : NativeLookup) (code : Code) : Opcode :=
  if code.first.toNat < firstExtendedNative then
    table.lookup code.first
  else
    match code.ordinal? with
    | some ordinal => if (natives ordinal).isSome then .native ordinal else .unresolvedNative ordinal
    | none => .unknown code.first

end OpcodeTable

end ScriptBytecode
