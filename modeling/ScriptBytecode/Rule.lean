/-
Module: ScriptBytecode.Rule
Purpose: Opcode rules. A rule gives a range of codes a meaning in the formats of a window. Of the rules that
  apply to a code the last one decides, so the overrides of an engine branch are appended to the era rules
  that all branches share.
Main exports: Action, Rule, Rule.applies, Rule.apply, eraRules
-/
import ScriptBytecode.Format
import ScriptBytecode.Opcode.Numbering

namespace ScriptBytecode

/-- What a rule makes of a code. -/
inductive Action where
  /-- The canonical kind of the code. -/
  | canonical
  /-- The canonical kind of the code `delta` further on. -/
  | shift (delta : Int)
  /-- A fixed kind. -/
  | kind (op : Opcode)
  /-- A standalone conversion; the code is the cast code. -/
  | legacyCast
  /-- No meaning. -/
  | unused
deriving Repr, Inhabited, DecidableEq

/-- Gives the codes from `first` to `last`, both included, a meaning in the formats of a window. -/
structure Rule where
  first : UInt8
  last : UInt8
  window : Window
  action : Action
deriving Repr, Inhabited, DecidableEq

/-- Kind that an action makes of a code. A shift that leaves the range of plain codes gives none. -/
def Action.apply (action : Action) (code : UInt8) : Opcode :=
  match action with
  | .canonical => Opcode.canonical code
  | .shift delta =>
    let shifted := (code.toNat : Int) + delta
    if 0 ≤ shifted ∧ shifted < firstExtendedNative then
      Opcode.canonical (UInt8.ofNat shifted.toNat)
    else
      .unknown code
  | .kind op => op
  | .legacyCast => .legacyCast code
  | .unused => .unknown code

namespace Rule

/-- The rule's range contains a code. -/
def covers (rule : Rule) (code : UInt8) : Bool :=
  rule.first ≤ code && code ≤ rule.last

/-- The rule has a say about a code in a format. -/
def applies (rule : Rule) (code : UInt8) (format : Format) : Bool :=
  rule.covers code && rule.window.admits format

/-- Kind that the rule gives to a code. -/
def apply (rule : Rule) (code : UInt8) : Opcode :=
  rule.action.apply code

end Rule

/-- Formats before the canonical numbering. -/
def beforeThirdLayout : Window := .below Feature.thirdLayout.since

/-- Formats with the second layout. -/
def secondLayoutOnly : Window := .between Feature.secondLayout.since Feature.thirdLayout.since

/-- Formats with the oldest layout. -/
def beforeSecondLayout : Window := .below Feature.secondLayout.since

/-- Rules of the engine generations, shared by every engine branch. -/
def eraRules : List Rule := [
  ⟨0x00, 0x5F, .any, .canonical⟩,
  -- Kinds that came with the canonical numbering.
  ⟨0x3A, 0x5F, beforeThirdLayout, .unused⟩,
  ⟨0x15, 0x15, beforeThirdLayout, .unused⟩,
  ⟨0x03, 0x03, beforeThirdLayout, .kind .undefinedVariable⟩,
  -- Struct member through primitive cast sit one code higher.
  ⟨0x35, 0x35, beforeThirdLayout, .unused⟩,
  ⟨0x36, 0x39, beforeThirdLayout, .shift (-1)⟩,
  ⟨0x40, 0x40, secondLayoutOnly, .kind .dynArrayInsert⟩,
  ⟨0x41, 0x41, secondLayoutOnly, .kind .dynArrayRemove⟩,
  ⟨0x42, 0x44, secondLayoutOnly, .canonical⟩,
  -- The oldest layout has no dynamic arrays, and its conversions stand alone.
  ⟨0x10, 0x10, beforeSecondLayout, .unused⟩,
  ⟨0x35, 0x35, beforeSecondLayout, .kind .rangeConst⟩,
  ⟨0x37, 0x37, beforeSecondLayout, .unused⟩,
  ⟨0x39, 0x59, beforeSecondLayout, .legacyCast⟩]

end ScriptBytecode
