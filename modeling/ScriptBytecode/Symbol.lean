/-
Module: ScriptBytecode.Symbol
Purpose: What a package knows about the references of its bytecode, and how references are written. The
  library only asks questions of a package, so `Symbols` is a record of answers; a table that gives them is
  in `ScriptBytecode.Symbol.Table`.
Main exports: FunctionFlags, ObjectKind, FunctionInfo, ObjectInfo, Symbols, Symbols.nameText,
  Symbols.objectText
-/
import ScriptBytecode.Native
import ScriptBytecode.Reference

namespace ScriptBytecode

/-- Declaration flags of a function, as stored in packages. -/
structure FunctionFlags where
  bits : UInt32 := 0
deriving Repr, Inhabited, DecidableEq

namespace FunctionFlags

/-- The function cannot be overridden. -/
def final : UInt32 := 0x00000001
/-- The function is a unary operator written before its operand. -/
def preOperator : UInt32 := 0x00000010
/-- The function is an operator. -/
def operator : UInt32 := 0x00001000
/-- The function belongs to its class and not to an object. -/
def static : UInt32 := 0x00002000

/-- All flags that have a meaning: the sixteen low ones, and those for access and delegates. -/
def known : UInt32 := 0x001EFFFF

/-- Flags from stored bits; bits without a meaning are dropped. -/
def ofBits (bits : UInt32) : FunctionFlags := ⟨bits &&& known⟩

/-- Some flag of `mask` is set. -/
def intersects (flags : FunctionFlags) (mask : UInt32) : Bool := flags.bits &&& mask != 0

end FunctionFlags

/-- What kind of declaration an object reference points at. -/
inductive ObjectKind where
  | property
  | function
  | classType
  | structType
  | state
  | enumType
  | constant
  | other
deriving Repr, Inhabited, DecidableEq

/-- What is known about a function. -/
structure FunctionInfo where
  flags : FunctionFlags := {}
  /-- Native ordinal, zero when the function is not bound to one. -/
  nativeIndex : Nat := 0
  /-- Precedence as a binary operator. -/
  precedence : Nat := 0
deriving Repr, Inhabited, DecidableEq

namespace FunctionInfo

/-- The function is declared as an operator. -/
def isOperator (f : FunctionInfo) : Bool := f.flags.intersects FunctionFlags.operator

/-- The function is declared as a unary operator written before its operand. -/
def isPreOperator (f : FunctionInfo) : Bool := f.flags.intersects FunctionFlags.preOperator

/-- Calls of the function are bound at compile time, so they never name a class to start from. -/
def bypassesOverrides (f : FunctionInfo) : Bool :=
  f.flags.intersects (FunctionFlags.final ||| FunctionFlags.static)

end FunctionInfo

/-- What is known about an object. -/
structure ObjectInfo where
  name : String
  /-- Name of the object's class, empty if unknown. -/
  className : String := ""
  /-- Name of the enclosing object, such as the class that owns a function. -/
  outer : Option String := none
  kind : ObjectKind
  function : Option FunctionInfo := none
deriving Repr, Inhabited, DecidableEq

/-- What a package answers about the references of its bytecode. -/
structure Symbols where
  name : NameRef → Option String
  object : ObjectRef → Option ObjectInfo
  native : NativeLookup

namespace Symbols

/-- Knows nothing; every reference is written as a placeholder. -/
def empty : Symbols where
  name := fun _ => none
  object := fun _ => none
  native := NativeLookup.empty

/-- Text of a name reference. An instance number `n` above zero is written as a suffix `_(n - 1)`. -/
def nameText (symbols : Symbols) (name : NameRef) : String :=
  let base := (symbols.name name).getD s!"Name#{name.index.toInt}"
  if 0 < name.number.toInt then s!"{base}_{name.number.toInt - 1}" else base

/-- Name of a referenced object, or a placeholder with its index. -/
def objectText (symbols : Symbols) (object : ObjectRef) : String :=
  if object.isNone then "none"
  else ((symbols.object object).map (·.name)).getD s!"Object#{object.index.toInt}"

end Symbols

end ScriptBytecode
