/-
Module: ScriptBytecode.Symbol.Table
Purpose: Symbols held in tables: names by position, objects by signed index, natives by ordinal.
Main exports: ObjectEntry, SymbolTable, SymbolTable.symbols
-/
import ScriptBytecode.Symbol

namespace ScriptBytecode

/-- An object as a symbol document declares it. The last three fields only matter for functions. -/
structure ObjectEntry where
  name : String
  className : String := ""
  outer : Option String := none
  kind : ObjectKind := .property
  flags : UInt32 := 0
  native : Nat := 0
  precedence : Nat := 0
deriving Repr, Inhabited, DecidableEq

/-- Package symbols in tables. -/
structure SymbolTable where
  names : Array String := #[]
  objects : Std.TreeMap Int ObjectEntry := {}
  natives : NativeTable := {}

/-- What an entry says about its object; only functions have function data. -/
def ObjectEntry.info (entry : ObjectEntry) : ObjectInfo where
  name := entry.name
  className := entry.className
  outer := entry.outer
  kind := entry.kind
  function :=
    if entry.kind = .function then
      some {
        flags := .ofBits entry.flags
        nativeIndex := entry.native
        precedence := entry.precedence }
    else none

/-- The answers of a table. A negative name index has none. -/
def SymbolTable.symbols (table : SymbolTable) : Symbols where
  name := fun name =>
    let index := name.index.toInt
    if index < 0 then none else table.names[index.toNat]?
  object := fun object => table.objects[object.index.toInt]?.map (·.info)
  native := table.natives.lookup

end ScriptBytecode
