/-
Module: ScriptBytecode.Reference
Purpose: The references that bytecode makes to its package: objects and names, both by index.
Main exports: ObjectRef, NameRef
-/

namespace ScriptBytecode

/-- Index into the package's object tables: positive for exports, negative for imports, zero for none. -/
structure ObjectRef where
  index : Int32
deriving Repr, Inhabited, DecidableEq

/-- The reference to no object. -/
def ObjectRef.isNone (object : ObjectRef) : Bool := object.index == 0

/-- Index into the package's name table and an instance number, which is zero when the format has none. -/
structure NameRef where
  index : Int32
  number : Int32 := 0
deriving Repr, Inhabited, DecidableEq

end ScriptBytecode
