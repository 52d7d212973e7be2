/-
Module: ScriptBytecode.Proofs.Decoding.Conformance
Purpose: Every decoded tree conforms to its dialect. The kind of each node is that of its code, its token is one of that
  kind in the format, and what was skipped or dropped while reading does not turn up in the tree. The decoder decides on
  hidden instructions by one byte and reads up to two; both say the same, since no native call is hidden.
Main exports: isHidden_resolve, needsExtension_eq_false, Instruction.Conforms, readInstruction_conforms, decode_conforms
-/
import ScriptBytecode.Geometry
import ScriptBytecode.Proofs.Decoding.Nesting

namespace ScriptBytecode

/-!
### Codes
-/

/-- Behind the plain codes there are native calls and codes without a meaning, and those are not hidden. -/
theorem isHidden_resolve_native {dialect : Dialect} {code : Code}
    (h : ¬code.first.toNat < firstExtendedNative) :
    (dialect.table.resolve dialect.natives code).isHidden = false := by
  rw [OpcodeTable.resolve, if_neg h]
  split
  · split <;> rfl
  · rfl

/-- The first byte of a code tells whether its kind is hidden. -/
theorem isHidden_resolve (dialect : Dialect) (code : Code) :
    (dialect.table.resolve dialect.natives ⟨code.first, none⟩).isHidden =
      (dialect.table.resolve dialect.natives code).isHidden := by
  by_cases hplain : code.first.toNat < firstExtendedNative
  · rw [OpcodeTable.resolve, OpcodeTable.resolve, if_pos hplain, if_pos hplain]
  · rw [isHidden_resolve_native hplain]
    exact isHidden_resolve_native hplain

/-- A second byte is read for native calls only, and for codes without a meaning. -/
theorem needsExtension_eq_false {dialect : Dialect} {code : Code} {opcode : Opcode}
    (h : dialect.table.resolve dialect.natives code = opcode) (hnative : opcode.isNative = false)
    (hknown : ∀ byte, opcode ≠ .unknown byte) : Code.needsExtension code.first = false := by
  by_cases hplain : code.first.toNat < firstExtendedNative
  · rw [Code.needsExtension, decide_eq_false (Nat.not_le.2 hplain)]
    rfl
  · rw [OpcodeTable.resolve, if_neg hplain] at h
    split at h
    · split at h <;> (subst h; cases hnative)
    · exact absurd h.symm (hknown _)

/-- Kinds that end a list of operands. -/
def Opcode.endsList (opcode : Opcode) : Bool := opcode == .endFunctionParms || opcode == .endParmValue

theorem Opcode.endsList_iff {opcode : Opcode} :
    opcode.endsList = true ↔ opcode = .endFunctionParms ∨ opcode = .endParmValue := by
  simp [endsList]

theorem Decoder.code_of_plain {first : UInt8} (h : Code.needsExtension first = false) (position offset : Nat)
    (rest : List UInt8) :
    Decoder.code ⟨position, offset, first :: rest⟩ = .ok ⟨first, none⟩ ⟨position + 1, offset + 1, rest⟩ := by
  refine bind_of_ok rfl ?_
  rw [h]
  rfl

/-- A code starts with the byte that was next. -/
theorem Decoder.code_head? {place next : Place} {code : Code} (h : Decoder.code place = .ok code next) :
    place.input.rest.head? = some code.first := by
  obtain ⟨first, middle, hbyte, hrest⟩ := bind_eq_ok h
  have hfirst : place.input.rest.head? = some first := by
    obtain ⟨position, offset, rest⟩ := place
    cases rest with
    | nil => cases hbyte
    | cons byte rest =>
        cases hbyte
        rfl
  rw [hfirst]
  split at hrest
  · obtain ⟨extension, last, -, hlast⟩ := bind_eq_ok hrest
    cases hlast
    rfl
  · cases hrest
    rfl

/-- An instruction is hidden if and only if it was announced as hidden. -/
theorem readInstruction_showsHidden {dialect : Dialect} {levels : Nat} {place next : Place} {i : Instruction}
    (h : readInstruction dialect levels place = .ok i next) :
    place.ShowsHidden dialect ↔ i.opcode.isHidden = true := by
  obtain ⟨fewer, afterCode, parts, -, hcomposed⟩ := readInstruction_composed h
  rw [Place.ShowsHidden, Place.ahead, Decoder.code_head? hcomposed.code, ← hcomposed.kind, ← isHidden_resolve]
  rfl

/-!
### Values of fields
-/

/-- Formats without name numbers give every name the number zero. -/
theorem Decoder.number_of_name {format : Format} (hgate : format.has .nameNumber = false) {place next : Place}
    {name : NameRef} (h : Decoder.name format place = .ok name next) : name.number = 0 := by
  unfold Decoder.name Decoder.plain Decoder.lift at h
  split at h
  · rename_i value input hreader
    obtain ⟨rfl, -⟩ := EStateM.Result.ok.inj h
    obtain ⟨index, middle, -, hrest⟩ := bind_eq_ok hreader
    rw [hgate] at hrest
    cases hrest
    rfl
  · cases h

/-- So do the entries of label tables. -/
theorem Decoder.number_of_labels {dialect : Dialect} (hgate : dialect.format.has .nameNumber = false)
    {place next : Place} {entries : List LabelEntry} (h : Decoder.labels dialect place = .ok entries next) :
    ∀ entry ∈ entries, entry.name.number = 0 := by
  have hcollects := Collects.of_collectWithin h
  clear h
  induction hcollects with
  | stop => exact fun entry hentry => nomatch hentry
  | more hstep _ ih =>
      intro entry hentry
      rcases List.mem_cons.1 hentry with rfl | hentry
      · obtain ⟨name, middle, hname, hrest⟩ := bind_eq_ok hstep
        obtain ⟨position, last, -, hlast⟩ := bind_eq_ok hrest
        have hvalue := (EStateM.Result.ok.inj hlast).1
        split at hvalue
        · cases hvalue
        · cases hvalue
          exact number_of_name hgate hname
      · exact ih entry hentry

/-- All names that a field holds. -/
theorem number_of_read {dialect : Dialect} {levels : Nat} {place next : Place} {part : Filled}
    (h : part.field.read dialect (readInstruction dialect levels) place = .ok part.value next)
    (hgate : dialect.format.has .nameNumber = false) : ∀ name ∈ part.names, name.number = 0 := by
  obtain ⟨field, value⟩ := part
  cases field with
  | name =>
      intro name hname
      obtain rfl := List.mem_singleton.1 hname
      exact Decoder.number_of_name hgate h
  | labels =>
      intro name hname
      obtain ⟨entry, hentry, rfl⟩ := List.mem_map.1 hname
      exact Decoder.number_of_labels hgate h entry hentry
  | _ => exact fun name hname => nomatch hname

/-- The operands of a list are of other kinds than its terminator. -/
theorem opcode_ne_of_collects {dialect : Dialect} {levels : Nat} {terminator : Opcode} {place next : Place}
    {operands : List Instruction} (h : Decoder.Collects (listStep dialect levels terminator) place operands next) :
    ∀ c ∈ operands, c.opcode ≠ terminator := by
  induction h with
  | stop => exact fun c hc => nomatch hc
  | more hstep _ ih =>
      intro c hc
      rcases List.mem_cons.1 hc with rfl | hc
      · exact (listStep_some.1 hstep).2
      · exact ih c hc

/-!
### Conformance
-/

/-- An instruction is one that its dialect has. -/
structure Instruction.Conforms (dialect : Dialect) (i : Instruction) : Prop where
  /-- The kind is that of the code. -/
  kind : dialect.table.resolve dialect.natives i.code = i.opcode
  /-- The token has the shape of the kind, and parts that only some formats store are there in those formats and in no
      other. A case has a value unless it is `default`, and a call of a native function has the ordinal of the kind. -/
  token : i.token.Suits dialect.format i.opcode
  /-- No operand is hidden. -/
  visible : ∀ c ∈ i.operands, c.opcode.isHidden = false
  /-- Lists of operands do not hold what ends them: the end of parameters in calls and in the methods of arrays that
      take a list, the end of the value in default values of parameters. -/
  unterminated : ∀ terminator operands, i.token.list? = some (terminator, operands) →
    ∀ c ∈ operands, c.opcode ≠ terminator
  /-- Names have a number other than zero only where the format stores numbers. -/
  numbers : dialect.format.has .nameNumber = false → ∀ name ∈ i.token.names, name.number = 0

/-- An `until` is a conditional jump. -/
theorem Instruction.opcode_of_isDoUntil {i : Instruction} {format : Format} (hsuits : i.token.Suits format i.opcode)
    (huntil : i.isDoUntil = true) : i.opcode = .jumpIfNot := by
  unfold Instruction.isDoUntil at huntil
  split at huntil
  · rename_i htoken
    rw [htoken] at hsuits
    exact hsuits
  · cases huntil

/-- Whatever is read conforms to the dialect. -/
theorem readInstruction_conforms {dialect : Dialect} {levels : Nat} {place next : Place} {i : Instruction}
    (h : readInstruction dialect levels place = .ok i next) : i.Conforms dialect := by
  obtain ⟨fewer, afterCode, parts, -, hcomposed⟩ := readInstruction_composed h
  constructor
  · exact hcomposed.kind
  · exact hcomposed.madeOf.suits
  · intro c hc
    obtain ⟨start, stop, hvisible, hread⟩ := hcomposed.chain.exists_read hc
    exact Bool.eq_false_iff.2 fun hhidden => hvisible ((readInstruction_showsHidden hread).2 hhidden)
  · intro terminator operands hlist
    rw [hcomposed.madeOf.list] at hlist
    obtain ⟨⟨field, value⟩, hlast, hfield⟩ := Option.bind_eq_some_iff.1 hlist
    obtain ⟨start, stop, hread⟩ := hcomposed.fills.exists_read (List.mem_of_getLast? hlast)
    cases field with
    | operandsUntil terminator =>
        cases hfield
        exact opcode_ne_of_collects (operandsUntil_eq_ok_iff.1 hread)
    | _ => cases hfield
  · intro hgate name hname
    rw [hcomposed.madeOf.names] at hname
    obtain ⟨part, hpart, hname⟩ := List.mem_flatMap.1 hname
    obtain ⟨start, stop, hread⟩ := hcomposed.fills.exists_read hpart
    exact number_of_read hread hgate name hname

/-- Decoded bodies conform to their dialect at every depth. -/
theorem decode_conforms (source : Source) (dialect : Dialect) :
    (source.decode dialect).Everywhere (Instruction.Conforms dialect) :=
  decode_everywhere readInstruction_conforms source

end ScriptBytecode
