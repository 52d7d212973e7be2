/-
Module: ScriptBytecode.Proofs.Encoding.RoundTrip
Purpose: Writing instructions as bytes, and that decoding undoes it. An instruction is written as its code and its
  pieces; how much room it takes is kept for both address spaces. `Instruction.Writable` says which instructions a
  dialect can write. Main statement: what was written decodes to the same instructions, without a failure.
Main exports: Stored, Endings, Instruction.stored, Instruction.Writable, Reads, reads_instruction, decode_stored
-/
import ScriptBytecode.Body
import ScriptBytecode.Proofs.Decoding.Conformance
import ScriptBytecode.Proofs.Encoding.Bytes
import ScriptBytecode.Proofs.Encoding.Pieces

namespace ScriptBytecode

/-!
### Writing
-/

/-- Bytes, and the room that they take in the logical address space. -/
structure Stored where
  bytes : List UInt8
  width : Nat
deriving Repr, DecidableEq

namespace Stored

instance : Append Stored := ⟨fun first second => ⟨first.bytes ++ second.bytes, first.width + second.width⟩⟩

@[simp] theorem bytes_append (first second : Stored) :
    (first ++ second).bytes = first.bytes ++ second.bytes := rfl

@[simp] theorem width_append (first second : Stored) :
    (first ++ second).width = first.width + second.width := rfl

/-- One after the other. -/
def join : List Stored → Stored
  | [] => ⟨[], 0⟩
  | first :: rest => first ++ join rest

theorem append_assoc (first second third : Stored) :
    first ++ second ++ third = first ++ (second ++ third) := by
  show Stored.mk _ _ = Stored.mk _ _
  rw [bytes_append, bytes_append, width_append, width_append, List.append_assoc, Nat.add_assoc]

theorem append_join_nil (first : Stored) : first ++ join [] = first := by
  show Stored.mk _ _ = first
  rw [join, List.append_nil, Nat.add_zero]

theorem join_nil_append (last : Stored) : join [] ++ last = last := by
  show Stored.mk _ _ = last
  rw [join, List.nil_append, Nat.zero_add]

theorem join_cons_append (first : Stored) (rest : List Stored) (last : Stored) :
    join (first :: rest) ++ last = first ++ (join rest ++ last) :=
  append_assoc ..

theorem length_le_join (parts : List Stored) (h : ∀ part ∈ parts, part.bytes ≠ []) :
    parts.length ≤ (join parts).bytes.length := by
  induction parts with
  | nil => exact Nat.zero_le _
  | cons part parts ih =>
      have hpart := List.length_pos_of_ne_nil (h part (List.mem_cons_self ..))
      have hrest := ih fun p hp => h p (List.mem_cons_of_mem _ hp)
      rw [join, bytes_append, List.length_append, List.length_cons]
      omega

/-- Bytes that are as wide in the logical address space as in storage. -/
def plain (bytes : List UInt8) : Stored := ⟨bytes, bytes.length⟩

end Stored

/-- How lists are ended: the code of each terminator, and an entry that ends a label table. -/
structure Endings where
  code : Terminator → UInt8
  label : LabelEntry

/-- The bytes of an index. -/
def indexBytes (format : Format) (index : Int32) : List UInt8 :=
  if format.has .plainIndex then digits 4 index.toUInt32.toNat else compactBytes index

/-- A name reference. -/
def NameRef.stored (format : Format) (name : NameRef) : Stored :=
  ⟨indexBytes format name.index ++
    (if format.has .nameNumber then digits 4 name.number.toUInt32.toNat else []), format.nameWidth⟩

/-- An object reference. -/
def ObjectRef.stored (format : Format) (object : ObjectRef) : Stored :=
  ⟨indexBytes format object.index, format.objectWidth⟩

/-- An entry of a label table. -/
def LabelEntry.stored (format : Format) (entry : LabelEntry) : Stored :=
  entry.name.stored format ++ .plain (digits 4 entry.position.toNat)

/-- The code of an instruction. -/
def Code.stored (code : Code) : Stored := .plain (code.first :: code.extension.toList)

/-- A piece, given how its operands are stored. -/
def Piece.stored (format : Format) (endings : Endings) : Piece Stored → Stored
  | .byte value => .plain [value]
  | .word value => .plain (digits 2 value.toNat)
  | .int value => .plain (digits 4 value.toUInt32.toNat)
  | .single value => .plain (digits 4 value.bits.toNat)
  | .ansiString text => .plain (ansiBytes text)
  | .wideString text => .plain (wideBytes text)
  | .name reference => reference.stored format
  | .object reference => reference.stored format
  | .operand part => part
  | .operandsUntil terminator operands => .join operands ++ .plain [endings.code terminator]
  | .labels entries => .join (entries.map (·.stored format)) ++ endings.label.stored format
  | .optionalTerminator => .plain [endings.code .parameters]

/-- An instruction and everything nested in it. -/
def Instruction.stored (format : Format) (endings : Endings) (i : Instruction) : Stored :=
  i.fold fun code opcode token =>
    code.stored ++ .join ((token.pieces format opcode).map (·.stored format endings))

/-- An instruction is its code and its pieces. -/
theorem Instruction.stored_eq (format : Format) (endings : Endings) (i : Instruction) :
    i.stored format endings = i.code.stored ++ .join ((i.token.pieces format i.opcode).map fun piece =>
      (piece.map (·.stored format endings)).stored format endings) := by
  rw [Instruction.stored, Instruction.fold_eq, pieces_foldToken, List.map_map]
  rfl

/-!
### What can be written
-/

/-- A second byte is there exactly when the first one needs it. -/
def Code.IsComplete (code : Code) : Prop := code.extension.isSome = Code.needsExtension code.first

/-- The stored form of indices can hold the index: the least integer has no compact form. -/
def Format.HoldsIndex (format : Format) (index : Int32) : Prop :=
  format.has .plainIndex = true ∨ index ≠ Int32.minValue

/-- The stored form of names can hold the name. -/
def Format.HoldsName (format : Format) (name : NameRef) : Prop :=
  format.HoldsIndex name.index ∧ (format.has .nameNumber = true ∨ name.number = 0)

/-- A terminator can be written with `levels` levels left: it takes a level itself, and its code means it. -/
def Dialect.Terminates (dialect : Dialect) (endings : Endings) (levels : Nat)
    (terminator : Terminator) : Prop :=
  0 < levels ∧
    dialect.table.resolve dialect.natives ⟨endings.code terminator, none⟩ = terminator.opcode

/-- A piece can be written, given which operands can, with `levels` levels left for them. -/
def Piece.Writable (dialect : Dialect) (endings : Endings) (levels : Nat) (inner : Instruction → Prop) :
    Piece Instruction → Prop
  | .ansiString text => ∀ c ∈ text.toList, c ≠ Char.ofNat 0 ∧ c.toNat ≤ 0xFF
  | .wideString text => ∀ c ∈ text.toList, c ≠ Char.ofNat 0
  | .name reference => dialect.format.HoldsName reference
  | .object reference => dialect.format.HoldsIndex reference.index
  | .operand part => part.opcode.isHidden = false ∧ inner part
  | .operandsUntil terminator operands =>
    dialect.Terminates endings levels terminator ∧
      ∀ part ∈ operands, part.opcode.isHidden = false ∧ part.opcode ≠ terminator.opcode ∧ inner part
  | .labels entries =>
    (Decoder.endsLabelTable dialect endings.label = true ∧ dialect.format.HoldsName endings.label.name) ∧
      ∀ entry ∈ entries, Decoder.endsLabelTable dialect entry = false ∧
        dialect.format.HoldsName entry.name
  | .optionalTerminator => dialect.Terminates endings levels .parameters
  | .byte _ | .word _ | .int _ | .single _ => True

/-- An instruction can be written with `levels` levels left: its code means its kind, its token is one of that kind in
    the format, and its pieces can be written. -/
def Instruction.Writable (dialect : Dialect) (endings : Endings) : (levels : Nat) → Instruction → Prop
  | 0, _ => False
  | levels + 1, i =>
    i.code.IsComplete ∧ dialect.table.resolve dialect.natives i.code = i.opcode ∧
      i.token.Suits dialect.format i.opcode ∧
      ∀ piece ∈ i.token.pieces dialect.format i.opcode,
        piece.Writable dialect endings levels (Instruction.Writable dialect endings levels)

/-!
### Reading back
-/

/-- The decoder takes exactly what is stored, whatever follows it, and gives a value with the property `post`. -/
def Reads {α : Type} (decoder : Decoder α) (stored : Stored) (post : α → Prop) : Prop :=
  ∀ position offset rest, ∃ value, decoder ⟨position, ⟨offset, stored.bytes ++ rest⟩⟩ =
    .ok value ⟨position + stored.width, ⟨offset + stored.bytes.length, rest⟩⟩ ∧ post value

namespace Reads

variable {α β : Type}

theorem pure {post : α → Prop} {value : α} (h : post value) : Reads (pure value) ⟨[], 0⟩ post :=
  fun _ _ _ => ⟨value, rfl, h⟩

/-- One part after another. -/
theorem bind {decoder : Decoder α} {next : α → Decoder β} {first second : Stored}
    {middle : α → Prop} {post : β → Prop} (hfirst : Reads decoder first middle)
    (hnext : ∀ value, middle value → Reads (next value) second post) :
    Reads (decoder >>= next) (first ++ second) post := by
  intro position offset rest
  obtain ⟨value, hvalue, hmiddle⟩ := hfirst position offset (second.bytes ++ rest)
  obtain ⟨result, hresult, hpost⟩ :=
    hnext value hmiddle (position + first.width) (offset + first.bytes.length) rest
  refine ⟨result, ?_, hpost⟩
  rw [bind_apply, Stored.bytes_append, List.append_assoc, hvalue, Stored.width_append,
    List.length_append, ← Nat.add_assoc, ← Nat.add_assoc]
  exact hresult

/-- A value that is made from another. -/
theorem map {decoder : Decoder α} {stored : Stored} {middle : α → Prop} {post : β → Prop} {f : α → β}
    (h : Reads decoder stored middle) (hf : ∀ value, middle value → post (f value)) :
    Reads (do return f (← decoder)) stored post := by
  intro position offset rest
  obtain ⟨value, hvalue, hmiddle⟩ := h position offset rest
  refine ⟨f value, ?_, hf value hmiddle⟩
  rw [bind_apply, hvalue]
  rfl

theorem mono {decoder : Decoder α} {stored : Stored} {middle post : α → Prop}
    (h : Reads decoder stored middle) (hpost : ∀ value, middle value → post value) :
    Reads decoder stored post := by
  intro position offset rest
  obtain ⟨value, hvalue, hmiddle⟩ := h position offset rest
  exact ⟨value, hvalue, hpost value hmiddle⟩

/-- What a reader takes, with a width of its own in the logical address space. -/
theorem lift {reader : Reader α} {bytes : List UInt8} {value : α} (h : Recovers reader bytes value)
    (width : α → Nat) : Reads (Decoder.lift reader width) ⟨bytes, width value⟩ (· = value) := by
  intro position offset rest
  refine ⟨value, ?_, rfl⟩
  unfold Decoder.lift
  rw [h]

end Reads

section

variable {dialect : Dialect} {endings : Endings}

theorem recovers_index {format : Format} {index : Int32} (h : format.HoldsIndex index) :
    Recovers (Decoder.index format) (indexBytes format index) index := by
  unfold Decoder.index indexBytes
  split
  · exact recovers_int index
  · rename_i hplain
    exact recovers_compactIndex (h.resolve_left hplain)

theorem reads_name {format : Format} {name : NameRef} (h : format.HoldsName name) :
    Reads (Decoder.name format) (name.stored format) (· = name) := by
  obtain ⟨index, number⟩ := name
  refine Reads.lift ((recovers_index h.1).bind ?_) _
  cases hgate : format.has .nameNumber with
  | true => exact (recovers_int number).map _
  | false =>
      obtain rfl : number = 0 := by simpa [Format.HoldsName, hgate] using h.2
      exact Recovers.pure _

theorem reads_object {format : Format} {object : ObjectRef} (h : format.HoldsIndex object.index) :
    Reads (Decoder.object format) (object.stored format) (· = object) :=
  Reads.lift ((recovers_index h).map ObjectRef.mk) _

theorem reads_code {code : Code} (h : code.IsComplete) : Reads Decoder.code code.stored (· = code) := by
  obtain ⟨first, extension⟩ := code
  have hfirst : Reads (Decoder.plain Reader.byte 1) (.plain [first]) (· = first) :=
    Reads.lift (recovers_byte first) _
  cases extension with
  | none =>
      have hneeds : Code.needsExtension first = false := h.symm
      show Reads _ (.plain [first] ++ .plain []) _
      refine hfirst.bind fun _ hread => ?_
      rw [hread, hneeds]
      exact Reads.pure rfl
  | some next =>
      have hneeds : Code.needsExtension first = true := h.symm
      have hnext : Reads (Decoder.plain Reader.byte 1) (.plain [next]) (· = next) :=
        Reads.lift (recovers_byte next) _
      show Reads _ (.plain [first] ++ .plain [next]) _
      refine hfirst.bind fun _ hread => ?_
      rw [hread, hneeds]
      exact hnext.map fun _ hnext => by rw [hnext]

/-!
### Lists
-/

/-- Collecting gives back what the step reads, one value after the other, up to what makes it stop. Every part takes
    at least one byte, so the bound is not met. -/
theorem reads_collect {α γ δ : Type} {step : Decoder (Option α)} {parts : List γ} {store : γ → Stored}
    {last : Stored} (view : α → δ) (key : γ → δ)
    (hstep : ∀ part ∈ parts, Reads step (store part) fun read => read.map view = some (key part))
    (hparts : ∀ part ∈ parts, (store part).bytes ≠ []) (hlast : Reads step last (· = none)) :
    Reads (Decoder.collect step) (.join (parts.map store) ++ last)
      fun read => read.map view = parts.map key := by
  have hwithin : ∀ bound, parts.length < bound →
      Reads (Decoder.collectWithin step bound) (.join (parts.map store) ++ last)
        fun read => read.map view = parts.map key := by
    clear hparts
    induction parts with
    | nil =>
        intro bound hbound
        obtain ⟨bound, rfl⟩ := Nat.exists_eq_succ_of_ne_zero (Nat.ne_of_gt hbound)
        rw [List.map_nil, Stored.join_nil_append, ← Stored.append_join_nil last]
        refine hlast.bind fun read hread => ?_
        subst hread
        exact Reads.pure rfl
    | cons part parts ih =>
        intro bound hbound
        obtain ⟨bound, rfl⟩ := Nat.exists_eq_succ_of_ne_zero (Nat.ne_of_gt (Nat.zero_lt_of_lt hbound))
        rw [List.map_cons, Stored.join_cons_append]
        refine (hstep part (List.mem_cons_self ..)).bind fun read hread => ?_
        obtain ⟨value, rfl, hvalue⟩ := Option.map_eq_some_iff.1 hread
        refine (ih (fun p hp => hstep p (List.mem_cons_of_mem _ hp)) bound
          (Nat.lt_of_succ_lt_succ hbound)).map fun rest hrest => ?_
        rw [List.map_cons, List.map_cons, hvalue, hrest]
  intro position offset rest
  refine hwithin _ ?_ position offset rest
  have hlength := Stored.length_le_join (parts.map store) (by simpa using hparts)
  simp only [List.length_map] at hlength
  simp only [Stored.bytes_append, List.length_append]
  omega

/-!
### Operands
-/

/-- An instruction starts with the first byte of its code. -/
theorem Instruction.bytes_stored (i : Instruction) (format : Format) (endings : Endings) :
    ∃ rest, (i.stored format endings).bytes = i.code.first :: rest :=
  ⟨_, by rw [Instruction.stored_eq]; rfl⟩

/-- Nothing is skipped before an instruction that is not hidden. -/
theorem collect_hidden_apply {instruction : Decoder Instruction} {first : UInt8}
    (h : (dialect.table.resolve dialect.natives ⟨first, none⟩).isHidden = false)
    (position offset : Nat) (rest : List UInt8) :
    Decoder.collect (do
      if (← Decoder.peek dialect).any (·.isHidden) then
        let _ ← instruction
        return some ()
      else
        return none) ⟨position, ⟨offset, first :: rest⟩⟩ =
      .ok [] ⟨position, ⟨offset, first :: rest⟩⟩ := by
  have hpeek : Decoder.peek dialect ⟨position, ⟨offset, first :: rest⟩⟩ =
      .ok (some (dialect.table.resolve dialect.natives ⟨first, none⟩))
        ⟨position, ⟨offset, first :: rest⟩⟩ := rfl
  show Decoder.collectWithin _ (_ + 1) _ = _
  rw [Decoder.collectWithin, bind_apply, bind_apply, hpeek]
  simp only [Option.any_some, h, Bool.false_eq_true, if_false]
  rfl

/-- An instruction that is not hidden is read as an operand. -/
theorem reads_operand {instruction : Decoder Instruction} {stored : Stored} {first : UInt8}
    {post : Instruction → Prop} (hfirst : ∃ bytes, stored.bytes = first :: bytes)
    (hhidden : (dialect.table.resolve dialect.natives ⟨first, none⟩).isHidden = false)
    (h : Reads instruction stored post) : Reads (Decoder.operand dialect instruction) stored post := by
  intro position offset rest
  obtain ⟨value, hvalue, hpost⟩ := h position offset rest
  obtain ⟨bytes, hbytes⟩ := hfirst
  refine ⟨value, ?_, hpost⟩
  unfold Decoder.operand
  rw [bind_apply, hbytes, List.cons_append, collect_hidden_apply hhidden]
  rw [hbytes, List.cons_append] at hvalue
  exact hvalue

/-- An instruction that can be written starts an operand. -/
theorem Instruction.Writable.reads_operand {levels : Nat} {i : Instruction}
    {instruction : Decoder Instruction} {post : Instruction → Prop} (hi : i.Writable dialect endings levels)
    (hhidden : i.opcode.isHidden = false) (h : Reads instruction (i.stored dialect.format endings) post) :
    Reads (Decoder.operand dialect instruction) (i.stored dialect.format endings) post := by
  cases levels with
  | zero => exact hi.elim
  | succ levels =>
      apply ScriptBytecode.reads_operand (i.bytes_stored dialect.format endings) _ h
      rw [isHidden_resolve, hi.2.1, hhidden]

/-!
### Terminators
-/

/-- The instruction that ends a list. -/
def Endings.instruction (endings : Endings) (terminator : Terminator) : Instruction :=
  .unplaced ⟨endings.code terminator, none⟩ terminator.opcode .noOperands

theorem Endings.stored_instruction (endings : Endings) (terminator : Terminator) (format : Format) :
    (endings.instruction terminator).stored format endings = .plain [endings.code terminator] := by
  rw [Instruction.stored_eq]
  exact Stored.append_join_nil _

/-- A terminator whose code means it is an instruction that can be written. -/
theorem Endings.writable_instruction {levels : Nat} {terminator : Terminator}
    (h : dialect.Terminates endings levels terminator) :
    (endings.instruction terminator).Writable dialect endings levels := by
  obtain ⟨hlevels, hcode⟩ := h
  obtain ⟨levels, rfl⟩ := Nat.exists_eq_succ_of_ne_zero (Nat.ne_of_gt hlevels)
  refine ⟨?_, hcode, by cases terminator <;> simp [Endings.instruction, Instruction.unplaced,
    Terminator.opcode, Token.Suits], by simp [Endings.instruction, Instruction.unplaced, Token.pieces]⟩
  -- A first byte that needs another has no kind of its own.
  show false = Code.needsExtension (endings.code terminator)
  cases hneeds : Code.needsExtension (endings.code terminator) with
  | false => rfl
  | true =>
      have hband : firstExtendedNative ≤ (endings.code terminator).toNat ∧
          (endings.code terminator).toNat < firstNative := by
        simpa [Code.needsExtension] using hneeds
      rw [OpcodeTable.resolve, if_neg (Nat.not_lt.2 hband.1), Code.ordinal?,
        if_neg (Nat.not_le.2 hband.2), if_pos hneeds] at hcode
      cases terminator <;> cases hcode

theorem Endings.isHidden_instruction (endings : Endings) (terminator : Terminator) :
    (endings.instruction terminator).opcode.isHidden = false := by
  cases terminator <;> rfl

/-!
### Pieces and instructions
-/

section

variable {levels : Nat} {instruction : Decoder Instruction}
  (hinner : ∀ i : Instruction, i.Writable dialect endings levels →
    Reads instruction (i.stored dialect.format endings) fun read => read.bare = i.bare)

include hinner

theorem reads_operandsUntil {terminator : Terminator} {operands : List Instruction}
    (hend : dialect.Terminates endings levels terminator)
    (hoperands : ∀ part ∈ operands, part.opcode.isHidden = false ∧ part.opcode ≠ terminator.opcode ∧
      part.Writable dialect endings levels) :
    Reads (Decoder.operandsUntil dialect instruction terminator.opcode)
      (.join (operands.map (·.stored dialect.format endings)) ++ .plain [endings.code terminator])
      fun read => read.map (·.bare) = operands.map (·.bare) := by
  have hlast := Endings.writable_instruction hend
  have hlastReads := hlast.reads_operand (endings.isHidden_instruction terminator)
    (hinner _ hlast)
  rw [endings.stored_instruction] at hlastReads
  refine reads_collect Instruction.bare Instruction.bare ?_ ?_ ?_
  · intro part hpart
    obtain ⟨hhidden, hother, hwritable⟩ := hoperands part hpart
    refine (hwritable.reads_operand hhidden (hinner part hwritable)).map fun read hread => ?_
    have hopcode : read.opcode = part.opcode := by
      rw [← read.bare_opcode, hread, part.bare_opcode]
    rw [if_neg (by rwa [hopcode]), Option.map_some, hread]
  · intro part _
    obtain ⟨rest, hbytes⟩ := part.bytes_stored dialect.format endings
    rw [hbytes]
    exact List.cons_ne_nil _ _
  · refine hlastReads.map fun read hread => ?_
    have hopcode : read.opcode = terminator.opcode := by
      rw [← read.bare_opcode, hread]
      rfl
    rw [if_pos hopcode]

theorem reads_optionalTerminator (hend : dialect.Terminates endings levels .parameters) :
    Reads (Decoder.optionalTerminator dialect instruction) (.plain [endings.code .parameters])
      fun _ => True := by
  intro position offset rest
  have hread := hinner _ (Endings.writable_instruction hend)
  rw [endings.stored_instruction] at hread
  obtain ⟨value, hvalue, -⟩ := hread position offset rest
  refine ⟨(), ?_, trivial⟩
  have hpeek : Decoder.peek dialect ⟨position, ⟨offset, endings.code .parameters :: rest⟩⟩ =
      .ok (some .endFunctionParms) ⟨position, ⟨offset, endings.code .parameters :: rest⟩⟩ := by
    show EStateM.Result.ok (some (dialect.table.resolve dialect.natives _)) _ = _
    rw [hend.2]
    rfl
  show (Decoder.peek dialect >>= _) ⟨position, ⟨offset, endings.code .parameters :: rest⟩⟩ = _
  rw [bind_apply, hpeek]
  dsimp only
  rw [if_pos rfl, bind_apply]
  rw [show instruction ⟨position, ⟨offset, endings.code .parameters :: rest⟩⟩ = _ from hvalue]
  rfl

omit hinner in
theorem reads_labels {entries : List LabelEntry}
    (hend : Decoder.endsLabelTable dialect endings.label = true)
    (hendName : dialect.format.HoldsName endings.label.name)
    (hentries : ∀ entry ∈ entries, Decoder.endsLabelTable dialect entry = false ∧
      dialect.format.HoldsName entry.name) :
    Reads (Decoder.labels dialect)
      (.join (entries.map (·.stored dialect.format)) ++ endings.label.stored dialect.format)
      (· = entries) := by
  have hentry : ∀ entry : LabelEntry, dialect.format.HoldsName entry.name →
      Reads (do
        let name ← Decoder.name dialect.format
        let position ← Decoder.plain Reader.dword 4
        let entry : LabelEntry := ⟨name, position⟩
        return if Decoder.endsLabelTable dialect entry then none else some entry)
      (entry.stored dialect.format)
      (· = if Decoder.endsLabelTable dialect entry then none else some entry) := by
    intro entry hname
    refine (reads_name hname).bind fun _ hread => ?_
    rw [hread]
    refine (Reads.lift (recovers_dword entry.position) _).map fun _ hread => ?_
    rw [hread]
  refine (reads_collect id id ?_ ?_ ?_).mono fun read hread => by simpa using hread
  · intro entry hmem
    obtain ⟨hgoesOn, hname⟩ := hentries entry hmem
    refine (hentry entry hname).mono fun read hread => ?_
    rw [hread, hgoesOn, if_neg Bool.false_ne_true]
    rfl
  · intro entry _
    simp [LabelEntry.stored, Stored.plain, digits]
  · refine (hentry endings.label hendName).mono fun read hread => ?_
    rw [hread, hend, if_pos rfl]

/-- Every piece that can be written is read back. -/
theorem reads_piece {piece : Piece Instruction}
    (h : piece.Writable dialect endings levels (Instruction.Writable dialect endings levels)) :
    Reads (piece.field.read dialect instruction)
      ((piece.map (·.stored dialect.format endings)).stored dialect.format endings) piece.Holds := by
  cases piece with
  | byte value => exact Reads.lift (recovers_byte value) _
  | word value => exact Reads.lift (recovers_word value) _
  | int value => exact Reads.lift (recovers_int value) _
  | single value => exact Reads.lift (recovers_single value) _
  | ansiString text =>
      exact (Reads.lift (recovers_ansiString h) _).map fun _ hread => congrArg Prod.fst hread
  | wideString text =>
      exact (Reads.lift (recovers_wideString h) _).map fun _ hread => congrArg Prod.fst hread
  | name reference => exact reads_name h
  | object reference => exact reads_object h
  | operand part => exact h.2.reads_operand h.1 (hinner part h.2)
  | operandsUntil terminator operands => exact reads_operandsUntil hinner h.1 h.2
  | labels entries => exact reads_labels h.1.1 h.1.2 h.2
  | optionalTerminator => exact reads_optionalTerminator hinner h

/-- A layout that accepts pieces reads them back, one after the other. -/
theorem reads_layout {β : Type} {post : β → Prop} {pieces : List (Piece Instruction)} {layout : Layout β}
    (haccepts : Accepts post pieces layout)
    (hpieces : ∀ piece ∈ pieces,
      piece.Writable dialect endings levels (Instruction.Writable dialect endings levels)) :
    Reads (layout.decode dialect instruction)
      (.join (pieces.map fun piece =>
        (piece.map (·.stored dialect.format endings)).stored dialect.format endings)) post := by
  induction haccepts with
  | done hpost => exact Reads.pure hpost
  | read _ ih =>
      exact (reads_piece hinner (hpieces _ (List.mem_cons_self ..))).bind fun value hvalue =>
        ih value hvalue fun piece hpiece => hpieces piece (List.mem_cons_of_mem _ hpiece)

end

/-- An instruction that can be written is read back, up to its addresses. The induction is on the levels left: operands
    are read with one level less. -/
theorem reads_instruction : ∀ (levels : Nat) (i : Instruction), i.Writable dialect endings levels →
    Reads (readInstruction dialect levels) (i.stored dialect.format endings)
      fun read => read.bare = i.bare
  | 0, _, h => h.elim
  | levels + 1, i, ⟨hcode, hopcode, hsuits, hpieces⟩ => by
      have hget : Reads (MonadState.get : Decoder Place) (.join []) fun _ => True :=
        fun place offset rest => ⟨_, rfl, trivial⟩
      have hlayout := reads_layout (reads_instruction levels) (accepts_pieces hsuits) hpieces
      rw [Instruction.stored_eq, ← Stored.join_nil_append (i.code.stored ++ _)]
      refine hget.bind fun start _ => (reads_code hcode).bind fun code hread => ?_
      subst hread
      rw [hopcode, ← Stored.append_join_nil (.join _)]
      refine hlayout.bind fun token htoken => hget.map fun stop _ => ?_
      show Instruction.unplaced i.code i.opcode (foldToken Instruction.unplaced token) = i.bare
      rw [show foldToken Instruction.unplaced token = _ from htoken]
      exact (i.fold_eq Instruction.unplaced).symm

end

/-!
### Whole bodies
-/

/-- Size in the logical address space and in storage. -/
def Stored.extent (stored : Stored) : Nat × Nat := (stored.width, stored.bytes.length)

/-- Size in the logical address space and in storage. -/
def Instruction.extent (i : Instruction) : Nat × Nat := (i.size, i.storageSize)

/-- Instructions, one after the other. -/
def storedAll (format : Format) (endings : Endings) (trees : List Instruction) : Stored :=
  .join (trees.map (·.stored format endings))

/-- An instruction takes at least one byte, and room in the logical address space. -/
theorem Instruction.stored_pos (format : Format) (endings : Endings) (i : Instruction) :
    0 < (i.stored format endings).bytes.length ∧ 0 < (i.stored format endings).width := by
  rw [Instruction.stored_eq]
  simp only [Code.stored, Stored.plain, Stored.bytes_append, Stored.width_append, List.length_append,
    List.length_cons]
  omega

/-- The instructions of a body are read back one after the other, and the last one ends where the body does. -/
theorem readFrom_storedAll {dialect : Dialect} {endings : Endings} {trees : List Instruction}
    (htrees : ∀ tree ∈ trees, tree.Writable dialect endings maxNesting) :
    ∀ (bound position offset : Nat) (rest : List UInt8),
      (storedAll dialect.format endings trees).bytes.length ≤ bound →
      ∃ read, Source.readFrom dialect (position + (storedAll dialect.format endings trees).width) bound
          ⟨position, ⟨offset, (storedAll dialect.format endings trees).bytes ++ rest⟩⟩ = (read, none) ∧
        read.map (·.bare) = trees.map (·.bare) ∧
        read.map (·.extent) = trees.map (fun tree => (tree.stored dialect.format endings).extent) ∧
        (read.getLast?.map (·.endPosition)).getD position =
          position + (storedAll dialect.format endings trees).width := by
  induction trees with
  | nil =>
      intro bound position offset rest _
      refine ⟨[], ?_, rfl, rfl, rfl⟩
      cases bound with
      | zero => rfl
      | succ bound =>
          rw [Source.readFrom, if_neg (by simp [storedAll, Stored.join])]
  | cons tree trees ih =>
      intro bound position offset rest hbound
      have hpos := tree.stored_pos dialect.format endings
      have hsplit : storedAll dialect.format endings (tree :: trees) =
          tree.stored dialect.format endings ++ storedAll dialect.format endings trees := rfl
      set first := tree.stored dialect.format endings with hfirst
      set later := storedAll dialect.format endings trees with hlater
      rw [hsplit, Stored.bytes_append, List.length_append] at hbound
      obtain ⟨bound, rfl⟩ := Nat.exists_eq_succ_of_ne_zero (show bound ≠ 0 by omega)
      obtain ⟨i, hread, hbare⟩ := reads_instruction maxNesting tree
        (htrees tree (List.mem_cons_self ..)) position offset (later.bytes ++ rest)
      obtain ⟨read, hrest, hbares, hextents, hlast⟩ :=
        ih (fun t ht => htrees t (List.mem_cons_of_mem _ ht)) bound (position + first.width)
          (offset + first.bytes.length) rest (by omega)
      have hspans := readInstruction_spans hread
      have hend : i.endPosition = position + first.width := hspans.endPosition
      have hextent : i.extent = first.extent := by
        have hstorage : i.storageEnd = offset + first.bytes.length := hspans.storageEnd
        have hposition : i.position = position := hspans.position
        have hoffset : i.storagePosition = offset := hspans.storagePosition
        unfold Instruction.endPosition at hend
        unfold Instruction.storageEnd at hstorage
        exact Prod.ext (show i.size = first.width by omega)
          (show i.storageSize = first.bytes.length by omega)
      refine ⟨i :: read, ?_, by rw [List.map_cons, List.map_cons, hbare, hbares],
        by rw [List.map_cons, List.map_cons, hextent, hextents], ?_⟩
      · rw [hsplit, Stored.bytes_append, Stored.width_append, List.append_assoc, ← Nat.add_assoc,
          Source.readFrom, if_pos, hread]
        · dsimp only
          rw [hrest]
        · have hbytes : first.bytes ≠ [] := List.ne_nil_of_length_pos hpos.1
          simp [hbytes]
          omega
      · rw [List.getLast?_cons, Option.map_some, Option.getD_some, hsplit, Stored.width_append,
          ← Nat.add_assoc, ← hlast, ← hend, Option.getD_map]

/-- Decoding undoes writing. Whatever the format, its rules, the natives and the names of a dialect, instructions that
    can be written decode to themselves up to addresses, each in its own extent, nothing fails, and the body is as long
    as it was declared. -/
theorem decode_stored (dialect : Dialect) (endings : Endings) (declaration : String)
    (trees : List Instruction) (htrees : ∀ tree ∈ trees, tree.Writable dialect endings maxNesting) :
    let stored := storedAll dialect.format endings trees
    let body := Source.decode ⟨declaration, stored.bytes, stored.width⟩ dialect
    body.instructions.toList.map (·.bare) = trees.map (·.bare) ∧
      body.instructions.toList.map (·.extent) =
        trees.map (fun tree => (tree.stored dialect.format endings).extent) ∧
      body.failure = none ∧ body.isIntact = true := by
  intro stored body
  obtain ⟨read, hread, hbares, hextents, hlast⟩ :=
    readFrom_storedAll htrees stored.bytes.length 0 0 [] (Nat.le_refl _)
  rw [Nat.zero_add, List.append_nil] at hread
  have hinstructions : body.instructions = read.toArray := congrArg (·.1.toArray) hread
  have hfailure : body.failure = none := congrArg (·.2) hread
  refine ⟨by rw [hinstructions]; exact hbares, by rw [hinstructions]; exact hextents, hfailure, ?_⟩
  have hconsumed : body.consumed = stored.width := by
    rw [Body.consumed, hinstructions, List.back?_toArray, hlast, Nat.zero_add]
  rw [Body.isIntact, hconsumed]
  exact beq_self_eq_true _

/-- A format with compact indices, the kinds of its era, and no known natives or names. -/
def compactDialect : Dialect := ⟨.ofFormat ⟨120, 0⟩, .empty, fun _ => none⟩

/-- Terminators of `compactDialect`, which has none for default values. -/
def compactEndings : Endings where
  code
    | .parameters => 0x16
    | .value => 0x15
  label := ⟨⟨0, 0⟩, 0xFFFF⟩

/-- A call with a negative index, a single-byte text and a native call with a code of two bytes. -/
def nestedCall : Instruction :=
  .unplaced ⟨0x1C, none⟩ .finalFunction (.call (.final ⟨-70⟩) [
    .unplaced ⟨0x1F, none⟩ .stringConst (.stringConst "é"),
    .unplaced ⟨0x61, some 0x23⟩ (.unresolvedNative 0x123) (.call (.native 0x123) [
      .unplaced ⟨0x1D, none⟩ .intConst (.intConst (-5))])])

/-- A label table with one entry. -/
def oneLabel : Instruction :=
  .unplaced ⟨0x0C, none⟩ .labelTable (.labelTable [⟨⟨7, 0⟩, 0x10⟩])

theorem decode_stored_nestedCall :
    (∀ tree ∈ [nestedCall, oneLabel], tree.Writable compactDialect compactEndings maxNesting) ∧
      let stored := storedAll compactDialect.format compactEndings [nestedCall, oneLabel]
      let body := Source.decode ⟨"nested", stored.bytes, stored.width⟩ compactDialect
      body.instructions.toList.map (·.bare) = [nestedCall, oneLabel].map (·.bare) ∧
        body.instructions.toList.map (·.extent) = [nestedCall, oneLabel].map (fun tree =>
          (tree.stored compactDialect.format compactEndings).extent) ∧
        body.failure = none ∧ body.isIntact = true := by
  have hterminator : compactDialect.Terminates compactEndings 255 .parameters ∧
      compactDialect.Terminates compactEndings 254 .parameters :=
    ⟨⟨by decide, by decide +kernel⟩, ⟨by decide, by decide +kernel⟩⟩
  have hcall : nestedCall.Writable compactDialect compactEndings maxNesting := by
    refine ⟨rfl, by decide +kernel, rfl, List.forall_mem_cons.2 ⟨Or.inr (by decide),
      List.forall_mem_singleton.2 ⟨hterminator.1, List.forall_mem_cons.2 ⟨⟨rfl, by decide, ?_⟩,
        List.forall_mem_singleton.2 ⟨rfl, by decide, ?_⟩⟩⟩⟩⟩
    · refine ⟨rfl, by decide +kernel, by simp [Instruction.unplaced, Token.Suits],
        List.forall_mem_singleton.2 ?_⟩
      intro c hc
      obtain rfl : c = 'é' := by simpa using hc
      decide
    · refine ⟨rfl, by decide +kernel, Or.inr rfl, List.forall_mem_singleton.2 ⟨hterminator.2,
        List.forall_mem_singleton.2 ⟨rfl, by decide, ?_⟩⟩⟩
      exact ⟨rfl, by decide +kernel, rfl, List.forall_mem_singleton.2 trivial⟩
  have hlabel : oneLabel.Writable compactDialect compactEndings maxNesting := by
    exact ⟨rfl, by decide +kernel, rfl, List.forall_mem_singleton.2
      ⟨⟨by decide, Or.inr (by decide), Or.inr rfl⟩,
        List.forall_mem_singleton.2 ⟨by decide, Or.inr (by decide), Or.inr rfl⟩⟩⟩
  have htrees : ∀ tree ∈ [nestedCall, oneLabel],
      tree.Writable compactDialect compactEndings maxNesting := by
    simp [hcall, hlabel]
  exact ⟨htrees, decode_stored compactDialect compactEndings "nested" [nestedCall, oneLabel] htrees⟩

end ScriptBytecode
