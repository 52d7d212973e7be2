/-
Module: ScriptBytecode.Listing
Purpose: The listing of a decoded body: a header, one line for each instruction with nested operands indented
  under their parent, and a last line when the body is not what it was declared to be.
Main exports: Instruction.detail, Instruction.line, Body.listing
-/
import ScriptBytecode.Body
import ScriptBytecode.Decimal.Shortest
import ScriptBytecode.Text.Quoted

namespace ScriptBytecode

/-- What a line says about an instruction besides its kind. -/
def Instruction.detail (i : Instruction) : String :=
  match i.token with
  | .jump target | .jumpIfNot target _ | .filterEditorOnly target =>
    s!" -> {Text.address target.toNat}"
  | .caseLabel target _ =>
    if target = defaultCaseTarget then " default" else s!" -> {Text.address target.toNat}"
  | .iterator _ stop | .dynArrayIterator _ _ _ _ stop => s!" end {Text.address stop.toNat}"
  | .intConst value => s!" {value.toInt}"
  | .byteConst value => s!" {value.toNat}"
  | .floatConst value => s!" {value.text}"
  | .stringConst value => s!" {Text.listingText value}"
  | .nameConst name | .instanceDelegate name => s!" name {name.index.toInt}"
  | .variableRef object | .objectConst object => s!" obj {object.index.toInt}"
  | .call (.final function) _ => s!" obj {function.index.toInt}"
  | .call (.virtual name) _ | .call (.global name) _ => s!" name {name.index.toInt}"
  | .labelTable entries => s!" {entries.length} labels"
  | .debugInfo _ line column _ => s!" line {line.toInt} col {column.toInt}"
  | .primitiveCast cast _ _ => s!" cast {Text.codeByte cast.toNat}"
  | _ => ""

/-- Columns: logical position, storage offset, logical and storage size, kind. -/
def Instruction.line (depth : Nat) (i : Instruction) : String :=
  let position := Text.hexUpper 4 i.position
  let storage := Text.hexUpper 4 i.storagePosition
  let size := Text.padLeft 3 ' ' (toString i.size)
  let storageSize := Text.padRight 3 ' ' (toString i.storageSize)
  let indent := String.join (List.replicate depth "  ")
  s!"{position} [{storage}] {size}/{storageSize} {indent}{i.opcode.text}{i.detail}"

namespace Body

/-- First line of a listing. -/
def listingHeader (body : Body) : String :=
  s!"; {body.declaration} format {body.format.text} ({body.format.era}), " ++
  s!"{body.instructions.size} tokens, " ++
  s!"size {Text.address body.consumed}/{Text.address body.declaredSize}"

/-- Last line of a listing, when there is something to say. -/
def listingFooter (body : Body) : Option String :=
  match body.failure with
  | some failure => some s!"; decode aborted: {failure.message}"
  | none => if body.isIntact then none else some "; size mismatch"

/-- Lines of a listing. -/
def listingLines (body : Body) : List String :=
  let lines := body.instructions.toList.flatMap fun i =>
    i.visit.map fun (depth, node) => node.line depth
  body.listingHeader :: lines ++ body.listingFooter.toList

/-- The listing as text. -/
def listing (body : Body) : String :=
  String.join (body.listingLines.map (· ++ "\n"))

end Body

end ScriptBytecode
