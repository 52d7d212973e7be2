/-
Module: ScriptBytecode.Decoder
Purpose: Reading instructions off a blob. The decoder keeps both addresses of the next byte; names and
  objects may take more room in the logical address space than in storage. Operands nest at most
  `maxNesting` levels deep, and this bound is what the recursion runs on.
Main exports: Dialect, Place, Decoder, Field.read, Layout.decode, readInstruction, maxNesting
-/
import ScriptBytecode.Layout
import ScriptBytecode.Reader

namespace ScriptBytecode

/-- Everything that decides how bytes are read: the kinds of the codes in a format, the native functions
    that are known, and the names of the package, which decide where a label table ends. -/
structure Dialect where
  table : OpcodeTable
  natives : NativeLookup
  names : NameRef → Option String

/-- The package format of a dialect. -/
def Dialect.format (dialect : Dialect) : Format := dialect.table.format

/-- The next byte of a blob, in both address spaces. -/
structure Place where
  /-- Logical position. -/
  position : Nat
  /-- Storage offset and the bytes left. -/
  input : Input
deriving Repr, Inhabited, DecidableEq

/-- The start of a blob. -/
def Place.start (bytes : List UInt8) : Place := ⟨0, .ofBytes bytes⟩

/-- Reads a part of an instruction and moves on. -/
abbrev Decoder := EStateM DecodeError Place

namespace Decoder

variable {α : Type}

/-- Moves on in storage as a reader does, and in the logical address space as `width` says. -/
def lift (reader : Reader α) (width : α → Nat) : Decoder α := fun place =>
  match reader place.input with
  | .ok value input => .ok value ⟨place.position + width value, input⟩
  | .error e input => .error e ⟨place.position, input⟩

/-- Reads something that is as wide in the logical address space as in storage. -/
def plain (reader : Reader α) (width : Nat) : Decoder α := lift reader fun _ => width

/-- The stored form of an index. -/
def index (format : Format) : Reader Int32 :=
  if format.has .plainIndex then Reader.int else Reader.compactIndex

/-- A name reference. -/
def name (format : Format) : Decoder NameRef :=
  let reference : Reader NameRef := do
    let index ← index format
    let number ← if format.has .nameNumber then Reader.int else pure 0
    return ⟨index, number⟩
  plain reference format.nameWidth

/-- An object reference. -/
def object (format : Format) : Decoder ObjectRef :=
  plain (return ⟨← index format⟩) format.objectWidth

/-- The code of an instruction: its first byte and, where that byte needs one, the byte after it. -/
def code : Decoder Code := do
  let first ← plain Reader.byte 1
  if Code.needsExtension first then
    let next ← plain Reader.byte 1
    return ⟨first, some next⟩
  else
    return ⟨first, none⟩

/-- Runs `step` until it gives nothing, at most `bound` times, and collects what it gave. -/
def collectWithin (step : Decoder (Option α)) : (bound : Nat) → Decoder (List α)
  | 0 => fun place => .error (.truncated place.input.offset 1) place
  | bound + 1 => do
    match ← step with
    | none => return []
    | some value => return value :: (← collectWithin step bound)

/-- Runs `step` until it gives nothing and collects what it gave. A step that gives something has read at
    least one byte, so one step more than there are bytes left is enough. -/
def collect (step : Decoder (Option α)) : Decoder (List α) := fun place =>
  collectWithin step (place.input.rest.length + 1) place

/-- Kind of the next instruction, judged by its first byte alone and without reading it. -/
def peek (dialect : Dialect) : Decoder (Option Opcode) := do
  let next := (← get).input.rest.head?
  return next.map fun first => dialect.table.resolve dialect.natives ⟨first, none⟩

/-- The next operand: hidden instructions before it are read and dropped. -/
def operand (dialect : Dialect) (instruction : Decoder Instruction) : Decoder Instruction := do
  let _ ← collect do
    if (← peek dialect).any (·.isHidden) then
      let _ ← instruction
      return some ()
    else
      return none
  instruction

/-- Operands up to one of kind `terminator`, which is read and dropped. -/
def operandsUntil (dialect : Dialect) (instruction : Decoder Instruction) (terminator : Opcode) :
    Decoder (List Instruction) :=
  collect do
    let next ← operand dialect instruction
    return if next.opcode = terminator then none else some next

/-- Reads an end-of-parameters instruction if one comes next. -/
def optionalTerminator (dialect : Dialect) (instruction : Decoder Instruction) : Decoder Unit := do
  if (← peek dialect) = some .endFunctionParms then
    let _ ← instruction

/-- Name of the entry that ends a label table. -/
def labelTableEnd : String := "None"

/-- Position of the entry that ends a label table; it decides when the entry's name is unknown. -/
def labelTableEndPosition : UInt32 := 0xFFFF

/-- An entry that ends a label table. -/
def endsLabelTable (dialect : Dialect) (entry : LabelEntry) : Bool :=
  match dialect.names entry.name with
  | some text => text == labelTableEnd
  | none => entry.position == labelTableEndPosition

/-- Label table entries up to the terminating one. -/
def labels (dialect : Dialect) : Decoder (List LabelEntry) :=
  collect do
    let name ← name dialect.format
    let position ← plain Reader.dword 4
    let entry : LabelEntry := ⟨name, position⟩
    return if endsLabelTable dialect entry then none else some entry

end Decoder

/-- Reads one field; nested instructions are read by `instruction`. -/
def Field.read (dialect : Dialect) (instruction : Decoder Instruction) :
    (field : Field) → Decoder field.Value
  | .byte => Decoder.plain Reader.byte 1
  | .word => Decoder.plain Reader.word 2
  | .int => Decoder.plain Reader.int 4
  | .single => Decoder.plain Reader.single 4
  | .ansiString => return (← Decoder.lift Reader.ansiString (·.2)).1
  | .wideString => return (← Decoder.lift Reader.wideString (·.2)).1
  | .name => Decoder.name dialect.format
  | .object => Decoder.object dialect.format
  | .operand => Decoder.operand dialect instruction
  | .operandsUntil terminator => Decoder.operandsUntil dialect instruction terminator
  | .labels => Decoder.labels dialect
  | .optionalTerminator => Decoder.optionalTerminator dialect instruction

/-- Reads the fields of a layout, one after the other. -/
def Layout.decode {α : Type} (dialect : Dialect) (instruction : Decoder Instruction) :
    Layout α → Decoder α
  | .done value => pure value
  | .read field next => do
    let value ← field.read dialect instruction
    (next value).decode dialect instruction

/-- Levels of nested operands before a blob counts as malformed. -/
def maxNesting : Nat := 256

/-- Reads one instruction and everything it nests, with `levels` levels left. -/
def readInstruction (dialect : Dialect) : (levels : Nat) → Decoder Instruction
  | 0 => fun place => .error (.nestingTooDeep place.input.offset) place
  | levels + 1 => do
    let start ← get
    let code ← Decoder.code
    let opcode := dialect.table.resolve dialect.natives code
    let token ← (layout dialect.format opcode).decode dialect (readInstruction dialect levels)
    let stop ← get
    return {
      code, opcode, token
      position := start.position
      size := stop.position - start.position
      storagePosition := start.input.offset
      storageSize := stop.input.offset - start.input.offset }

end ScriptBytecode
