/-
Module: ScriptBytecode.Proofs.Decoding.Devices
Purpose: The decoder over any way of reading. Decoding uses its monad for three things only: to read bytes with a
  logical width, to ask for the place of the next byte, and to give up when a loop has used up its bound. A `Device`
  is such a monad, and the decoder of operands is written here once for all of them. Two devices whose primitives are
  related run the decoder in a related way; the induction over fields, loops and layouts that this takes is made here
  once, and what a relation says is left to those who use it.
Main exports: Device, Primitive, PrimitiveMoves.primitive, Device.code, Device.layout, Device.Relates,
  Device.Relates.layout, Device.decoder, Device.decoder_layout
-/
import ScriptBytecode.Proofs.Decoding.Fields

namespace ScriptBytecode

variable {α β : Type}

/-- What decoding asks of the monad that it runs in. -/
structure Device (M : Type → Type) where
  /-- Reads bytes, and moves on in the logical address space by the width of what was read. -/
  read : {α : Type} → Reader α → (α → Nat) → M α
  /-- The place of the next byte. -/
  place : M Place
  /-- Gives up on a loop that has used up its bound. -/
  exhausted : {α : Type} → M α

/-- The reads that fields are made of in a format, each with its logical width. -/
inductive Primitive (format : Format) : {α : Type} → Reader α → (α → Nat) → Prop where
  | byte : Primitive format Reader.byte fun _ => 1
  | word : Primitive format Reader.word fun _ => 2
  | dword : Primitive format Reader.dword fun _ => 4
  | int : Primitive format Reader.int fun _ => 4
  | single : Primitive format Reader.single fun _ => 4
  | ansiString : Primitive format Reader.ansiString (·.2)
  | wideString : Primitive format Reader.wideString (·.2)
  | name : Primitive format (do
      let index ← Decoder.index format
      let number ← if format.has .nameNumber then Reader.int else pure 0
      return (⟨index, number⟩ : NameRef)) fun _ => format.nameWidth
  | object : Primitive format (do return (⟨← Decoder.index format⟩ : ObjectRef)) fun _ => format.objectWidth

/-- Every read of a format moves as its primitive reads do. -/
theorem PrimitiveMoves.primitive {R : Place → Place → Prop} {format : Format} (hR : PrimitiveMoves R format)
    {reader : Reader α} {width : α → Nat} (h : Primitive format reader width) :
    Moves R (Decoder.lift reader width) := by
  cases h with
  | byte => exact hR.byte
  | word => exact hR.word
  | dword => exact hR.dword
  | int => exact hR.int
  | single => exact hR.single
  | ansiString => exact hR.ansiString
  | wideString => exact hR.wideString
  | name => exact hR.name
  | object => exact hR.object

namespace Device

section Decoding

variable {M : Type → Type} [Monad M] (device : Device M)

/-- A name reference. -/
def name (format : Format) : M NameRef :=
  device.read (do
    let index ← Decoder.index format
    let number ← if format.has .nameNumber then Reader.int else pure 0
    return ⟨index, number⟩) fun _ => format.nameWidth

/-- The code of an instruction. -/
def code : M Code := do
  let first ← device.read Reader.byte fun _ => 1
  if Code.needsExtension first then
    let next ← device.read Reader.byte fun _ => 1
    return ⟨first, some next⟩
  else
    return ⟨first, none⟩

/-- Runs `step` until it gives nothing, at most `bound` times. -/
def collectWithin (step : M (Option α)) : (bound : Nat) → M (List α)
  | 0 => device.exhausted
  | bound + 1 => do
    match ← step with
    | none => return []
    | some value => return value :: (← collectWithin step bound)

/-- Runs `step` until it gives nothing. -/
def collect (step : M (Option α)) : M (List α) := do
  device.collectWithin step ((← device.place).input.rest.length + 1)

/-- Kind of the next instruction, judged by its first byte alone. -/
def peek (dialect : Dialect) : M (Option Opcode) := return (← device.place).ahead dialect

/-- Reads a hidden instruction, if one comes next. -/
def hiddenStep (dialect : Dialect) (instruction : M Instruction) : M (Option Unit) := do
  if (← device.peek dialect).any (·.isHidden) then
    let _ ← instruction
    return some ()
  else
    return none

/-- The next operand, behind the hidden instructions in front of it. -/
def operand (dialect : Dialect) (instruction : M Instruction) : M Instruction := do
  let _ ← device.collect (device.hiddenStep dialect instruction)
  instruction

/-- Operands up to one of kind `terminator`. -/
def operandsUntil (dialect : Dialect) (instruction : M Instruction) (terminator : Opcode) : M (List Instruction) :=
  device.collect do
    let next ← device.operand dialect instruction
    return if next.opcode = terminator then none else some next

/-- An end-of-parameters instruction, if one comes next. -/
def optionalTerminator (dialect : Dialect) (instruction : M Instruction) : M Unit := do
  if (← device.peek dialect) = some .endFunctionParms then
    let _ ← instruction

/-- Label table entries up to the terminating one. -/
def labels (dialect : Dialect) : M (List LabelEntry) :=
  device.collect do
    let name ← device.name dialect.format
    let position ← device.read Reader.dword fun _ => 4
    let entry : LabelEntry := ⟨name, position⟩
    return if Decoder.endsLabelTable dialect entry then none else some entry

/-- Reads one field. -/
def field (dialect : Dialect) (instruction : M Instruction) : (field : Field) → M field.Value
  | .byte => device.read Reader.byte fun _ => 1
  | .word => device.read Reader.word fun _ => 2
  | .int => device.read Reader.int fun _ => 4
  | .single => device.read Reader.single fun _ => 4
  | .ansiString => return (← device.read Reader.ansiString (·.2)).1
  | .wideString => return (← device.read Reader.wideString (·.2)).1
  | .name => device.name dialect.format
  | .object => device.read (do return ⟨← Decoder.index dialect.format⟩) fun _ => dialect.format.objectWidth
  | .operand => device.operand dialect instruction
  | .operandsUntil terminator => device.operandsUntil dialect instruction terminator
  | .labels => device.labels dialect
  | .optionalTerminator => device.optionalTerminator dialect instruction

/-- Reads the fields of a layout. -/
def layout (dialect : Dialect) (instruction : M Instruction) : Layout α → M α
  | .done value => pure value
  | .read field next => do
    let value ← device.field dialect instruction field
    layout dialect instruction (next value)

end Decoding

/-!
### Related devices
-/

section Related

variable {M N : Type → Type} [Monad M] [Monad N]

/-- A relation between the computations of two devices that their primitives respect. -/
structure Relates (format : Format) (device : Device M) (device' : Device N)
    (Rel : ∀ {α : Type}, M α → N α → Prop) : Prop where
  pure : ∀ {α : Type} (value : α), Rel (Pure.pure value) (Pure.pure value)
  bind : ∀ {α β : Type} {m : M α} {m' : N α} {rest : α → M β} {rest' : α → N β}, Rel m m' →
    (∀ value, Rel (rest value) (rest' value)) → Rel (m >>= rest) (m' >>= rest')
  read : ∀ {α : Type} {reader : Reader α} {width : α → Nat}, Primitive format reader width →
    Rel (device.read reader width) (device'.read reader width)
  place : Rel device.place device'.place
  exhausted : ∀ {α : Type}, Rel (device.exhausted : M α) device'.exhausted

namespace Relates

variable {format : Format} {device : Device M} {device' : Device N} {Rel : ∀ {α : Type}, M α → N α → Prop}
  {dialect : Dialect} {instruction : M Instruction} {instruction' : N Instruction}

theorem code (h : Relates format device device' Rel) : Rel device.code device'.code := by
  refine h.bind (h.read .byte) fun first => ?_
  split
  · exact h.bind (h.read .byte) fun _ => h.pure _
  · exact h.pure _

theorem collectWithin (h : Relates format device device' Rel) {step : M (Option α)} {step' : N (Option α)}
    (hstep : Rel step step') (bound : Nat) :
    Rel (device.collectWithin step bound) (device'.collectWithin step' bound) := by
  induction bound with
  | zero => exact h.exhausted
  | succ bound ih =>
      refine h.bind hstep fun given => ?_
      cases given with
      | none => exact h.pure _
      | some value => exact h.bind ih fun _ => h.pure _

theorem collect (h : Relates format device device' Rel) {step : M (Option α)} {step' : N (Option α)}
    (hstep : Rel step step') : Rel (device.collect step) (device'.collect step') :=
  h.bind h.place fun _ => h.collectWithin hstep _

theorem peek (h : Relates format device device' Rel) : Rel (device.peek dialect) (device'.peek dialect) :=
  h.bind h.place fun _ => h.pure _

theorem operand (h : Relates format device device' Rel) (hi : Rel instruction instruction') :
    Rel (device.operand dialect instruction) (device'.operand dialect instruction') := by
  refine h.bind (h.collect (h.bind h.peek fun next => ?_)) fun _ => hi
  split
  · exact h.bind hi fun _ => h.pure _
  · exact h.pure _

theorem operandsUntil (h : Relates format device device' Rel) (hi : Rel instruction instruction')
    (terminator : Opcode) :
    Rel (device.operandsUntil dialect instruction terminator) (device'.operandsUntil dialect instruction' terminator) :=
  h.collect (h.bind (h.operand hi) fun _ => h.pure _)

theorem optionalTerminator (h : Relates format device device' Rel) (hi : Rel instruction instruction') :
    Rel (device.optionalTerminator dialect instruction) (device'.optionalTerminator dialect instruction') := by
  refine h.bind h.peek fun next => ?_
  split
  · exact h.bind hi fun _ => h.pure _
  · exact h.pure _

theorem labels (h : Relates dialect.format device device' Rel) : Rel (device.labels dialect) (device'.labels dialect) :=
  h.collect (h.bind (h.read .name) fun _ => h.bind (h.read .dword) fun _ => h.pure _)

theorem field (h : Relates dialect.format device device' Rel) (hi : Rel instruction instruction') (field : Field) :
    Rel (device.field dialect instruction field) (device'.field dialect instruction' field) := by
  cases field with
  | byte => exact h.read .byte
  | word => exact h.read .word
  | int => exact h.read .int
  | single => exact h.read .single
  | ansiString => exact h.bind (h.read .ansiString) fun _ => h.pure _
  | wideString => exact h.bind (h.read .wideString) fun _ => h.pure _
  | name => exact h.read .name
  | object => exact h.read .object
  | operand => exact h.operand hi
  | operandsUntil terminator => exact h.operandsUntil hi terminator
  | labels => exact h.labels
  | optionalTerminator => exact h.optionalTerminator hi

/-- Related devices read a layout in a related way, if they read nested instructions so. -/
theorem layout (h : Relates dialect.format device device' Rel) (hi : Rel instruction instruction')
    (layout : Layout α) :
    Rel (device.layout dialect instruction layout) (device'.layout dialect instruction' layout) := by
  induction layout with
  | done value => exact h.pure value
  | read field next ih => exact h.bind (h.field hi field) ih

/-- A property of one device is a relation that looks at one side only. -/
theorem layout_self {P : ∀ {α : Type}, M α → Prop} (h : Relates dialect.format device device fun m _ => P m)
    (hi : P instruction) (layout : Layout α) : P (device.layout dialect instruction layout) :=
  @Relates.layout α M M _ _ device device _ dialect instruction instruction h hi layout

end Relates

end Related

/-!
### The decoder as a device
-/

/-- The device that decoding runs on: a place, and an error that ends the run. -/
def decoder : Device Decoder where
  read := Decoder.lift
  place := get
  exhausted := fun place => .error (.truncated place.input.offset 1) place

theorem decoder_collectWithin (step : Decoder (Option α)) (bound : Nat) :
    decoder.collectWithin step bound = Decoder.collectWithin step bound := by
  induction bound with
  | zero => rfl
  | succ bound ih =>
      refine congrArg (step >>= ·) (funext fun given => ?_)
      cases given with
      | none => rfl
      | some value => exact congrArg (· >>= fun rest => pure (value :: rest)) ih

theorem decoder_collect (step : Decoder (Option α)) : decoder.collect step = Decoder.collect step := by
  funext place
  exact congrFun (decoder_collectWithin step _) place

variable {dialect : Dialect} {instruction : Decoder Instruction}

theorem decoder_operand : decoder.operand dialect instruction = Decoder.operand dialect instruction := by
  rw [operand, decoder_collect]
  rfl

theorem decoder_field (field : Field) : decoder.field dialect instruction field = field.read dialect instruction := by
  cases field with
  | operand => exact decoder_operand
  | operandsUntil terminator =>
      show decoder.collect (do
        let next ← decoder.operand dialect instruction
        return if next.opcode = terminator then none else some next) = _
      rw [decoder_collect, decoder_operand]
      rfl
  | labels => exact decoder_collect _
  | _ => rfl

/-- On its own device the decoder is the decoder. -/
theorem decoder_layout (layout : Layout α) :
    decoder.layout dialect instruction layout = layout.decode dialect instruction := by
  induction layout with
  | done value => rfl
  | read field next ih =>
      rw [Device.layout, Layout.decode, decoder_field, funext ih]

end Device

end ScriptBytecode
