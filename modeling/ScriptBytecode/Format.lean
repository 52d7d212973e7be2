/-
Module: ScriptBytecode.Format
Purpose: The package format a body was written for. A format is a version and a licensee number; what it
  changes in the bytecode is named by `Feature`, each of which is present from one version on.
Main exports: Format, Feature, Format.has, Window, Window.admits
-/

namespace ScriptBytecode

/-- Package format of a bytecode blob: the engine's file version and the licensee (engine branch)
    number, which is 0 for stock builds. -/
structure Format where
  version : Nat
  licensee : Nat
deriving Repr, Inhabited, DecidableEq

/-- A change of the bytecode layout that came with some file version. -/
inductive Feature where
  /-- Conversions are operands of one cast instruction, and dynamic arrays exist. -/
  | secondLayout
  /-- Name and object indices are stored as four-byte integers instead of compact indices. -/
  | plainIndex
  /-- The canonical numbering of instruction codes. -/
  | thirdLayout
  /-- `new` expressions carry a trailing template operand. -/
  | newTemplate
  /-- Struct member access carries the owning struct. -/
  | structOwner
  /-- Delegate calls carry a leading "local delegate" byte. -/
  | delegateLocality
  /-- Name references carry an instance number. -/
  | nameNumber
  /-- `assert` carries a debug-mode byte after its line number. -/
  | assertMode
  /-- Delegate property references carry the property after the name. -/
  | delegateProperty
  /-- Struct member access carries two trailing flag bytes. -/
  | structFlags
  /-- `switch` carries the switched property before its size byte. -/
  | switchProperty
  /-- Object references take eight bytes in the jump-target address space. -/
  | widePointers
  /-- Dynamic array insert, remove and add may end with a parameter terminator. -/
  | arrayTerminator
deriving Repr, DecidableEq

/-- First file version with a feature. -/
def Feature.since : Feature → Nat
  | .secondLayout => 100
  | .plainIndex => 178
  | .thirdLayout => 180
  | .newTemplate => 190
  | .structOwner => 224
  | .delegateLocality => 281
  | .nameNumber => 343
  | .assertMode => 470
  | .delegateProperty => 479
  | .structFlags => 518
  | .switchProperty => 536
  | .widePointers => 587
  | .arrayTerminator => 648

namespace Format

/-- The format's file version is `version` or later. -/
def atLeast (format : Format) (version : Nat) : Bool :=
  version ≤ format.version

/-- The format has a feature. -/
def has (format : Format) (feature : Feature) : Bool :=
  format.atLeast feature.since

/-- Logical width of a name reference. -/
def nameWidth (format : Format) : Nat :=
  if format.has .nameNumber then 8 else 4

/-- Logical width of an object reference. -/
def objectWidth (format : Format) : Nat :=
  if format.has .widePointers then 8 else 4

/-- Short label of the engine generation, used by listings. -/
def era (format : Format) : String :=
  if !format.has .secondLayout then "ue1"
  else if !format.has .thirdLayout then "ue2"
  else "ue3"

/-- Text of a format: `512/0`. -/
def text (format : Format) : String :=
  s!"{format.version}/{format.licensee}"

/-- Formats are ordered by version, then by licensee. -/
def order (a b : Format) : Ordering :=
  (compare a.version b.version).then (compare a.licensee b.licensee)

end Format

/-- The formats a rule applies to. The lower bound is inclusive and the upper bound exclusive; a
    licensee, when given, has to match exactly. -/
structure Window where
  minVersion : Option Nat := none
  maxVersion : Option Nat := none
  licensee : Option Nat := none
deriving Repr, Inhabited, DecidableEq

namespace Window

/-- Every format. -/
def any : Window := {}

/-- Formats before `version`. -/
def below (version : Nat) : Window := { maxVersion := some version }

/-- Formats from `first` on and before `last`. -/
def between (first last : Nat) : Window :=
  { minVersion := some first, maxVersion := some last }

/-- The window contains a format. -/
def admits (window : Window) (format : Format) : Bool :=
  window.minVersion.all (· ≤ format.version) &&
  window.maxVersion.all (format.version < ·) &&
  window.licensee.all (format.licensee == ·)

end Window

end ScriptBytecode
