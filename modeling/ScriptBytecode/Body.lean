/-
Module: ScriptBytecode.Body
Purpose: The decoded body of one function or state: its top-level instructions, and why decoding stopped early
  if it did. Instructions stand in the order of their positions, so they are looked up by binary search.
Main exports: Source, Body, Source.decode, Body.consumed, Body.isIntact, Body.indexOf?, Body.endingAt?, Tape
-/
import ScriptBytecode.Decoder

namespace ScriptBytecode

/-- The bytes of one body, with the name of its declaration and its size in the logical address space. -/
structure Source where
  declaration : String
  bytes : List UInt8
  declaredSize : Nat
deriving Repr, Inhabited

/-- Top-level instructions of one body. -/
structure Body where
  declaration : String
  declaredSize : Nat
  /-- Format the body was decoded for. -/
  format : Format
  instructions : Array Instruction
  /-- Why decoding stopped before the end. -/
  failure : Option DecodeError

namespace Source

/-- A body of which nothing has been decoded yet. -/
def undecoded (source : Source) : Body where
  declaration := source.declaration
  declaredSize := source.declaredSize
  format := ⟨0, 0⟩
  instructions := #[]
  failure := none

/-- Reads instructions from `place` on until the declared size is reached or no byte is left, at most `bound`
    of them. An instruction that cannot be read ends the sequence; what was read before it is kept. -/
def readFrom (dialect : Dialect) (declaredSize : Nat) :
    (bound : Nat) → Place → List Instruction × Option DecodeError
  | 0, _ => ([], none)
  | bound + 1, place =>
    if place.position < declaredSize && !place.input.rest.isEmpty then
      match readInstruction dialect maxNesting place with
      | .ok instruction next =>
        let (rest, failure) := readFrom dialect declaredSize bound next
        (instruction :: rest, failure)
      | .error failure _ => ([], some failure)
    else
      ([], none)

/-- Decodes a body. Every instruction takes at least one byte, so there are at most as many as bytes. -/
def decode (source : Source) (dialect : Dialect) : Body :=
  let (instructions, failure) :=
    readFrom dialect source.declaredSize source.bytes.length (.start source.bytes)
  { declaration := source.declaration
    declaredSize := source.declaredSize
    format := dialect.format
    instructions := instructions.toArray
    failure }

end Source

/-- The least index between `low` and `high` at which `before` fails, if it holds of a first part of the
    range only. -/
def partitionPoint (before : Nat → Bool) (low high : Nat) : Nat :=
  if low < high then
    let middle := (low + high) / 2
    if before middle then partitionPoint before (middle + 1) high
    else partitionPoint before low middle
  else
    low
termination_by high - low

namespace Body

/-- Logical size of what was decoded. -/
def consumed (body : Body) : Nat :=
  (body.instructions.back?.map (·.endPosition)).getD 0

/-- What was decoded is as long as declared. -/
def isIntact (body : Body) : Bool := body.declaredSize == body.consumed

/-- Logical end of the code. -/
def codeEnd (body : Body) : Nat := max body.consumed body.declaredSize

/-- Index of the top-level instruction that starts at `position`. -/
def indexOf? (body : Body) (position : Nat) : Option Nat :=
  let index := partitionPoint (fun i => body.instructions[i]?.any (·.position < position)) 0
    body.instructions.size
  if body.instructions[index]?.any (·.position == position) then some index else none

/-- Top-level instruction that starts at `position`. -/
def at? (body : Body) (position : Nat) : Option Instruction :=
  (body.indexOf? position).bind (body.instructions[·]?)

/-- Top-level instruction that ends at `position`. -/
def endingAt? (body : Body) (position : Nat) : Option Instruction :=
  let index := partitionPoint (fun i => body.instructions[i]?.any (·.endPosition < position)) 0
    body.instructions.size
  body.instructions[index]?.filter (·.endPosition == position)

/-- Index of the first instruction from `index` on that is not hidden. -/
def skipHidden (body : Body) (index : Nat) : Nat :=
  if h : index < body.instructions.size then
    if body.instructions[index].opcode.isHidden then body.skipHidden (index + 1) else index
  else
    index
termination_by body.instructions.size - index

end Body

/-- A body that is read instruction by instruction, and the index of the one that comes next. -/
structure Tape where
  body : Body
  next : Nat := 0

namespace Tape

/-- Moves to the instruction that starts at `position`; without one the tape stays where it is. -/
def seek (tape : Tape) (position : Nat) : Option Instruction × Tape :=
  match tape.body.indexOf? position with
  | some index => (tape.body.instructions[index]?, { tape with next := index })
  | none => (none, tape)

/-- The next instruction that is not hidden, and the tape after it. -/
def advance (tape : Tape) : Option Instruction × Tape :=
  let index := tape.body.skipHidden tape.next
  match tape.body.instructions[index]? with
  | some instruction => (some instruction, { tape with next := index + 1 })
  | none => (none, { tape with next := index })

/-- Back to the start. -/
def rewind (tape : Tape) : Tape := { tape with next := 0 }

end Tape

end ScriptBytecode
