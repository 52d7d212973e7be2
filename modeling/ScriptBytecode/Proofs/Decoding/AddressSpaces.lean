/-
Module: ScriptBytecode.Proofs.Decoding.AddressSpaces
Purpose: How far the two address spaces are apart. Where indices are stored as integers, everything but an object
  reference is as wide in the one as in the other, so the distance between them is a count of object references. The
  count runs over a row of operands with the fields between them; what is dropped on the way (hidden instructions,
  terminators, the last entry of a label table) holds no reference, and what is kept holds all of them.
Main exports: Token.objects, Instruction.objects, Spread, Tally, readInstruction_spread, decode_addresses
-/
import ScriptBytecode.Proofs.Decoding.Conformance
import ScriptBytecode.Proofs.Decoding.Partition

namespace ScriptBytecode

variable {α β : Type}

/-!
### Object references
-/

/-- The object references that a callee is given by. -/
def CallTarget.objects : CallTarget → List ObjectRef
  | .final function => [function]
  | .delegate _ property _ => [property]
  | .virtual _ | .global _ | .native _ => []

/-- The object references in a token, those of its operands aside. -/
def Token.objects : Token α → List ObjectRef
  | .variableRef object | .objectConst object | .returnNothing object => [object]
  | .delegateProperty _ property | .switch property _ _ => property.toList
  | .eatReturnValue property _ => [property]
  | .context _ _ field _ _ => field.toList
  | .structMember property owner _ _ => property :: owner.toList
  | .call target _ => target.objects
  | .primitiveCast _ interface _ => interface.toList
  | .classCast target _ => [target]
  | .structCmp type _ _ => [type]
  | _ => []

/-- The object references that a field holds, those of its operands aside. -/
def Filled.objects : Filled → List ObjectRef
  | ⟨.object, object⟩ => [object]
  | _ => []

namespace Instruction

/-- The object references in the tokens of the instruction and of everything nested in it. -/
def objects (i : Instruction) : List ObjectRef := i.visit.flatMap (·.2.token.objects)

/-- What is visited does not depend on the depth that counting starts from. -/
theorem visitFrom_nodes (i : Instruction) (depth depth' : Nat) :
    (i.visitFrom depth).map (·.2) = (i.visitFrom depth').map (·.2) := by
  induction i using inductionOnOperands generalizing depth depth' with
  | step i ih =>
    rw [visitFrom_eq, visitFrom_eq, List.map_cons, List.map_cons, List.map_flatMap, List.map_flatMap]
    congr 1
    exact List.flatMap_congr fun c hc => ih c hc _ _

/-- The references of a tree are those of its root and those of the operands. -/
theorem objects_eq (i : Instruction) : i.objects = i.token.objects ++ i.operands.flatMap objects := by
  have hnodes : ∀ (c : Instruction) (depth : Nat),
      (c.visitFrom depth).flatMap (·.2.token.objects) = c.objects := by
    intro c depth
    have hmap := List.flatMap_map (f := fun node : Nat × Instruction => node.2) (g := fun node => node.token.objects)
    rw [objects, visit, ← hmap, visitFrom_nodes c depth 0, hmap]
  rw [objects, visit, visitFrom_eq, List.flatMap_cons, List.flatMap_assoc]
  simp only [hnodes]

end Instruction

/-- Hidden instructions and the ends of lists hold neither references nor operands. -/
theorem bare_layout (format : Format) {opcode : Opcode} (h : opcode.isHidden = true ∨ opcode.endsList = true) :
    (layout format opcode).Always fun _ token => token.objects = [] ∧ token.operands = [] := by
  have hdebug : opcode.isHidden = true → opcode = .debugInfo := by
    cases opcode <;> simp [Opcode.isHidden]
  rw [Opcode.endsList_iff] at h
  rcases h.imp_left hdebug with rfl | rfl | rfl
  · intro version line column mode
    exact ⟨rfl, rfl⟩
  · exact ⟨rfl, rfl⟩
  · exact ⟨rfl, rfl⟩

/-- The token holds the references that its fields hold, and its lists are ended by the kinds that end lists. -/
structure Token.Keeps (parts : List Filled) (token : Token Instruction) : Prop where
  objects : token.objects = parts.flatMap Filled.objects
  terminators : ∀ part ∈ parts, ∀ terminator, part.field = .operandsUntil terminator → terminator.endsList = true

/-- No layout drops a reference that it reads. -/
theorem keeps_layout (format : Format) (opcode : Opcode) : (layout format opcode).Always Token.Keeps := by
  cases opcode
  case caseLabel =>
    intro target
    change Layout.Always _ (Layout.bind (Layout.given (target != defaultCaseTarget) .operand) _)
    unfold Layout.given
    split
    · exact fun value => ⟨rfl, by simp⟩
    · exact ⟨rfl, by simp⟩
  case primitiveCast =>
    intro cast
    change Layout.Always _
      (Layout.bind (Layout.given (cast == objectToInterface && format.has .thirdLayout) .object) _)
    unfold Layout.given
    split
    · exact fun interface expr => ⟨rfl, by simp⟩
    · exact fun expr => ⟨rfl, by simp⟩
  all_goals simp only [layout, Layout.given, Layout.call]
  all_goals repeat' split
  all_goals repeat' (intro _)
  all_goals constructor
  all_goals simp [Token.objects, CallTarget.objects, Filled.objects, Opcode.endsList]

/-!
### Widths
-/

/-- A read that succeeds takes as many bytes as `width` says. -/
def Reader.Takes (reader : Reader α) (width : α → Nat) : Prop :=
  ∀ ⦃input next value⦄, reader input = .ok value next → next.offset = input.offset + width value

namespace Reader

theorem takes_take (n : Nat) : Takes (take n) fun _ => n := by
  intro input next value h
  unfold take at h
  split at h
  · cases h
    rfl
  · cases h

theorem takes_byte : Takes byte fun _ => 1 := by
  rintro ⟨offset, rest⟩ next value h
  cases rest with
  | nil => cases h
  | cons byte rest =>
      cases h
      rfl

theorem Takes.bind {reader : Reader α} {rest : α → Reader β} {first second : Nat}
    (hreader : Takes reader fun _ => first) (hrest : ∀ value, Takes (rest value) fun _ => second) :
    Takes (reader >>= rest) fun _ => first + second := by
  intro input next value h
  obtain ⟨read, middle, hfirst, hsecond⟩ := bind_eq_ok h
  rw [hrest read hsecond, hreader hfirst, Nat.add_assoc]

theorem takes_pure (value : α) : Takes (pure value) fun _ => 0 := by
  intro input next result h
  cases h
  rfl

theorem takes_word : Takes word fun _ => 2 := (takes_take 2).bind fun _ => takes_pure _

theorem takes_dword : Takes dword fun _ => 4 := (takes_take 4).bind fun _ => takes_pure _

theorem takes_int : Takes int fun _ => 4 := takes_dword.bind fun _ => takes_pure _

theorem takes_single : Takes single fun _ => 4 := takes_dword.bind fun _ => takes_pure _

theorem takes_ansiString : Takes ansiString (·.2) := by
  intro input next value h
  unfold ansiString at h
  split at h
  · cases h
    exact Nat.add_assoc ..
  · cases h

theorem takes_wideString : Takes wideString (·.2) := by
  intro input next value h
  unfold wideString at h
  split at h
  · cases h
    rfl
  · cases h

end Reader

/-- How much wider an object reference is in the logical address space than the integer that stores it. -/
def Format.objectExcess (format : Format) : Nat := if format.has .widePointers then 4 else 0

/-- From the first place to the second one the logical position goes as far as the storage offset does, and `excess`
    further for each of `count` references. -/
def Spread (excess count : Nat) (place next : Place) : Prop :=
  next.position + place.input.offset = place.position + next.input.offset + excess * count

namespace Spread

variable {excess count more : Nat} {place middle next : Place}

theorem refl (excess : Nat) (place : Place) : Spread excess 0 place place := rfl

theorem trans (h : Spread excess count place middle) (h' : Spread excess more middle next) :
    Spread excess (count + more) place next := by
  unfold Spread at *
  rw [Nat.mul_add]
  omega

/-- A read that is as wide in the one address space as in the other. -/
theorem lift {reader : Reader α} {width : α → Nat} (h : reader.Takes width) {value : α}
    (hread : Decoder.lift reader width place = .ok value next) (excess : Nat) : Spread excess 0 place next := by
  unfold Decoder.lift at hread
  split at hread
  · rename_i result input hreader
    cases hread
    have := h hreader
    simp only [Spread]
    omega
  · cases hread

theorem byte {value : UInt8} (hread : Decoder.plain Reader.byte 1 place = .ok value next) (excess : Nat) :
    Spread excess 0 place next :=
  lift Reader.takes_byte hread excess

theorem code {code : Code} (hread : Decoder.code place = .ok code next) (excess : Nat) :
    Spread excess 0 place next := by
  obtain ⟨first, middle, hfirst, hrest⟩ := bind_eq_ok hread
  split at hrest
  · obtain ⟨extension, last, hextension, hlast⟩ := bind_eq_ok hrest
    cases hlast
    exact (byte hfirst excess).trans (byte hextension excess)
  · cases hrest
    exact byte hfirst excess

end Spread

section Widths

variable {format : Format} {place next : Place}

/-- Where indices are integers, so is every index. -/
theorem Decoder.takes_index (hindex : format.has .plainIndex = true) :
    Reader.Takes (Decoder.index format) fun _ => 4 := by
  unfold Decoder.index
  rw [if_pos hindex]
  exact Reader.takes_int

/-- The logical width of a name is that of its index and of the number that goes with it. -/
theorem Decoder.takes_name (hindex : format.has .plainIndex = true) :
    Reader.Takes (do
      let index ← Decoder.index format
      let number ← if format.has .nameNumber then Reader.int else pure 0
      return (⟨index, number⟩ : NameRef)) fun _ => format.nameWidth := by
  unfold Format.nameWidth
  cases format.has .nameNumber with
  | true => exact (takes_index hindex).bind fun _ => Reader.takes_int.bind fun _ => Reader.takes_pure _
  | false => exact (takes_index hindex).bind fun _ => (Reader.takes_pure _).bind fun _ => Reader.takes_pure _

theorem Decoder.takes_object (hindex : format.has .plainIndex = true) :
    Reader.Takes (do return (⟨← Decoder.index format⟩ : ObjectRef)) fun _ => 4 :=
  (takes_index hindex).bind fun _ => Reader.takes_pure _

theorem Decoder.spread_name (hindex : format.has .plainIndex = true) {name : NameRef}
    (hread : Decoder.name format place = .ok name next) (excess : Nat) : Spread excess 0 place next :=
  Spread.lift (takes_name hindex) hread excess

/-- An object reference is stored as an integer and may be wider than that. -/
theorem Decoder.spread_object (hindex : format.has .plainIndex = true) {object : ObjectRef}
    (hread : Decoder.object format place = .ok object next) : Spread format.objectExcess 1 place next := by
  unfold Decoder.object Decoder.plain Decoder.lift at hread
  split at hread
  · rename_i value input hreader
    cases hread
    have hoffset : input.offset = place.input.offset + 4 := takes_object hindex hreader
    unfold Spread Format.objectExcess Format.objectWidth
    dsimp only
    split <;> omega
  · cases hread

/-- Label tables hold no reference, and neither does the entry that ends them. -/
theorem Decoder.spread_labels {dialect : Dialect} (hindex : dialect.format.has .plainIndex = true)
    {entries : List LabelEntry} (hread : Decoder.labels dialect place = .ok entries next) (excess : Nat) :
    Spread excess 0 place next := by
  have hcollects := Collects.of_collectWithin hread
  have hentry : ∀ {place next : Place} {given : Option LabelEntry},
      (do
        let name ← Decoder.name dialect.format
        let position ← Decoder.plain Reader.dword 4
        let entry : LabelEntry := ⟨name, position⟩
        return if Decoder.endsLabelTable dialect entry then none else some entry : Decoder (Option LabelEntry)) place =
          .ok given next → Spread excess 0 place next := by
    intro place next given h
    obtain ⟨name, middle, hname, hrest⟩ := bind_eq_ok h
    obtain ⟨position, last, hposition, hlast⟩ := bind_eq_ok hrest
    cases hlast
    exact (spread_name hindex hname excess).trans (Spread.lift Reader.takes_dword hposition excess)
  clear hread
  induction hcollects with
  | stop hstep => exact hentry hstep
  | more hstep _ ih => exact (hentry hstep).trans ih

end Widths

/-!
### Rows of operands
-/

/-- Instructions that have been read one after the other between two places. Before, between and behind them stand
    `count` references, and apart from those nothing that is wider in the one address space than in the other. -/
inductive Tally (dialect : Dialect) (levels : Nat) : Place → Nat → List Instruction → Place → Prop where
  | nil {place next : Place} {count : Nat} (hgap : Spread dialect.format.objectExcess count place next) :
      Tally dialect levels place count [] next
  | cons {place start stop next : Place} {count more : Nat} {i : Instruction} {rest : List Instruction}
      (hgap : Spread dialect.format.objectExcess count place start)
      (hread : readInstruction dialect levels start = .ok i stop) (hrest : Tally dialect levels stop more rest next) :
      Tally dialect levels place (count + more) (i :: rest) next

/-- Instructions that are read with the given levels are spread by the references in them. -/
def SpreadsReads (dialect : Dialect) (levels : Nat) : Prop :=
  ∀ ⦃place next i⦄, readInstruction dialect levels place = .ok i next →
    Spread dialect.format.objectExcess i.objects.length place next

namespace Tally

variable {dialect : Dialect} {levels count more : Nat} {place middle next : Place} {operands others : List Instruction}

theorem after (hgap : Spread dialect.format.objectExcess count place middle)
    (h : Tally dialect levels middle more operands next) : Tally dialect levels place (count + more) operands next := by
  cases h with
  | nil hnext => exact .nil (hgap.trans hnext)
  | cons hstart hread hrest =>
      rw [← Nat.add_assoc]
      exact .cons (hgap.trans hstart) hread hrest

theorem append (h : Tally dialect levels place count operands middle)
    (h' : Tally dialect levels middle more others next) :
    Tally dialect levels place (count + more) (operands ++ others) next := by
  induction h with
  | nil hgap => exact h'.after hgap
  | cons hgap hread _ ih =>
      rw [Nat.add_assoc]
      exact .cons hgap hread (ih h')

/-- A row is spread by the references in its gaps and by those in its operands. -/
theorem spread (hreads : SpreadsReads dialect levels) (h : Tally dialect levels place count operands next) :
    Spread dialect.format.objectExcess (count + (operands.flatMap Instruction.objects).length) place next := by
  induction h with
  | nil hgap => exact hgap
  | @cons place start stop next count more i rest hgap hread _ ih =>
      have hcount : count + (i.objects.length + (more + (rest.flatMap Instruction.objects).length)) =
          count + more + ((i :: rest).flatMap Instruction.objects).length := by
        rw [List.flatMap_cons, List.length_append]
        omega
      exact hcount ▸ hgap.trans ((hreads hread).trans ih)

/-- Where every operand has been read from, in a row. -/
theorem exists_read (hreads : SpreadsReads dialect levels) (h : Tally dialect levels place count operands next)
    {c : Instruction} (hc : c ∈ operands) :
    ∃ before start stop, Spread dialect.format.objectExcess before place start ∧
      readInstruction dialect levels start = .ok c stop := by
  induction h with
  | nil => cases hc
  | cons hgap hread _ ih =>
      rcases List.mem_cons.1 hc with rfl | hc
      · exact ⟨_, _, _, hgap, hread⟩
      · obtain ⟨before, start, stop, hstart, hc⟩ := ih hc
        exact ⟨_, start, stop, hgap.trans ((hreads hread).trans hstart), hc⟩

end Tally

section Rows

variable {dialect : Dialect} {levels : Nat} {place next : Place}

/-- What is dropped while operands are read leaves no trace in the distance of the address spaces. -/
theorem SpreadsReads.dropped (hreads : SpreadsReads dialect levels) {i : Instruction}
    (hread : readInstruction dialect levels place = .ok i next)
    (hopcode : i.opcode.isHidden = true ∨ i.opcode.endsList = true) :
    Spread dialect.format.objectExcess 0 place next := by
  obtain ⟨fewer, afterCode, parts, -, hcomposed⟩ := readInstruction_composed hread
  obtain ⟨hobjects, hoperands⟩ := (bare_layout dialect.format hopcode).of_yields hcomposed.yields
  have hnone : i.objects = [] := by
    rw [Instruction.objects_eq, hobjects, Instruction.operands, hoperands]
    rfl
  have hspread := hreads hread
  rwa [hnone] at hspread

theorem SpreadsReads.skips (hreads : SpreadsReads dialect levels) (h : Skips dialect levels place next) :
    Spread dialect.format.objectExcess 0 place next := by
  induction h with
  | stop => exact Spread.refl _ _
  | step hhidden hread _ ih =>
      exact (hreads.dropped hread (.inl ((readInstruction_showsHidden hread).1 hhidden))).trans ih

theorem SpreadsReads.collects (hreads : SpreadsReads dialect levels) {terminator : Opcode}
    (hends : terminator.endsList = true) {operands : List Instruction}
    (h : Decoder.Collects (listStep dialect levels terminator) place operands next) :
    Tally dialect levels place 0 operands next := by
  induction h with
  | stop hstep =>
      obtain ⟨last, hlast, hkind⟩ := listStep_none.1 hstep
      obtain ⟨start, hskips, hread⟩ := operand_eq_ok_iff.1 hlast
      exact .nil ((hreads.skips hskips).trans (hreads.dropped hread (.inr (hkind ▸ hends))))
  | more hstep _ ih =>
      obtain ⟨start, hskips, hread⟩ := operand_eq_ok_iff.1 (listStep_some.1 hstep).1
      exact .cons (hreads.skips hskips) hread ih

/-- The instruction that the next byte announces as the end of parameters is read as that. -/
theorem opcode_of_ahead {i : Instruction} (hread : readInstruction dialect levels place = .ok i next)
    (hahead : place.ahead dialect = some .endFunctionParms) : i.opcode = .endFunctionParms := by
  obtain ⟨fewer, afterCode, parts, -, hcomposed⟩ := readInstruction_composed hread
  have hhead := Decoder.code_head? hcomposed.code
  rw [Place.ahead, hhead] at hahead
  have hkind : dialect.table.resolve dialect.natives ⟨i.code.first, none⟩ = .endFunctionParms :=
    Option.some.inj hahead
  have hplain : Code.needsExtension i.code.first = false := by
    apply needsExtension_eq_false hkind rfl
    rintro byte ⟨⟩
  obtain ⟨left, hrest⟩ := List.head?_eq_some_iff.1 hhead
  have hcode := Decoder.code_of_plain hplain place.position place.input.offset left
  rw [← hrest] at hcode
  have hsame : i.code = ⟨i.code.first, none⟩ :=
    (EStateM.Result.ok.inj (hcomposed.code.symm.trans hcode)).1
  rw [← hcomposed.kind, hsame]
  exact hkind

theorem SpreadsReads.optionalTerminator (hreads : SpreadsReads dialect levels) {given : Unit}
    (h : Decoder.optionalTerminator dialect (readInstruction dialect levels) place = .ok given next) :
    Spread dialect.format.objectExcess 0 place next := by
  change (if place.ahead dialect = some .endFunctionParms then _ else _ : Decoder Unit) place = _ at h
  split at h
  · rename_i hahead
    obtain ⟨i, middle, hread, hlast⟩ := bind_eq_ok h
    cases hlast
    have hkind := opcode_of_ahead hread hahead
    exact hreads.dropped hread (.inr (by rw [hkind]; rfl))
  · cases h
    exact Spread.refl _ _

/-- A field is a row of its operands, with its own references in the gaps. -/
theorem SpreadsReads.field (hreads : SpreadsReads dialect levels) (hindex : dialect.format.has .plainIndex = true)
    {part : Filled} (hends : ∀ terminator, part.field = .operandsUntil terminator → terminator.endsList = true)
    (h : part.field.read dialect (readInstruction dialect levels) place = .ok part.value next) :
    Tally dialect levels place part.objects.length part.operands next := by
  obtain ⟨field, value⟩ := part
  cases field with
  | byte => exact .nil (Spread.byte h _)
  | word => exact .nil (Spread.lift Reader.takes_word h _)
  | int => exact .nil (Spread.lift Reader.takes_int h _)
  | single => exact .nil (Spread.lift Reader.takes_single h _)
  | ansiString =>
      obtain ⟨text, middle, htext, hlast⟩ := bind_eq_ok h
      cases hlast
      exact .nil (Spread.lift Reader.takes_ansiString htext _)
  | wideString =>
      obtain ⟨text, middle, htext, hlast⟩ := bind_eq_ok h
      cases hlast
      exact .nil (Spread.lift Reader.takes_wideString htext _)
  | name => exact .nil (Decoder.spread_name hindex h _)
  | object => exact .nil (Decoder.spread_object hindex h)
  | operand =>
      obtain ⟨start, hskips, hread⟩ := operand_eq_ok_iff.1 h
      exact .cons (hreads.skips hskips) hread (.nil (Spread.refl _ _))
  | operandsUntil terminator => exact hreads.collects (hends terminator rfl) (operandsUntil_eq_ok_iff.1 h)
  | labels => exact .nil (Decoder.spread_labels hindex h _)
  | optionalTerminator => exact .nil (hreads.optionalTerminator h)

/-- Fields in a row are a row of all their operands. -/
theorem SpreadsReads.fields (hreads : SpreadsReads dialect levels) (hindex : dialect.format.has .plainIndex = true)
    {parts : List Filled}
    (hends : ∀ part ∈ parts, ∀ terminator, part.field = .operandsUntil terminator → terminator.endsList = true)
    (h : Fills dialect levels place parts next) :
    Tally dialect levels place (parts.flatMap Filled.objects).length (parts.flatMap Filled.operands) next := by
  induction h with
  | nil => exact .nil (Spread.refl _ _)
  | cons hread _ ih =>
      rw [List.flatMap_cons, List.flatMap_cons, List.length_append]
      exact (hreads.field hindex (hends _ (List.mem_cons_self ..)) hread).append
        (ih fun part hpart => hends part (List.mem_cons_of_mem _ hpart))

/-- The operands of an instruction form a row behind its code, with its own references in the gaps. -/
theorem Instruction.Composed.tally {i : Instruction} {afterCode : Place} {parts : List Filled}
    (h : i.Composed dialect levels place afterCode next parts) (hindex : dialect.format.has .plainIndex = true)
    (hreads : SpreadsReads dialect levels) :
    Tally dialect levels place i.token.objects.length i.operands next := by
  have hkeeps := (keeps_layout dialect.format i.opcode).of_yields h.yields
  have hfields := hreads.fields hindex hkeeps.terminators h.fills
  rw [hkeeps.objects, Instruction.operands, h.madeOf.operands, ← Nat.zero_add (List.length _)]
  exact hfields.after (Spread.code h.code _)

end Rows

/-- Every instruction is spread by the references in it. The induction is on the levels: what an instruction drops has
    been read with one level less. -/
theorem readInstruction_spread {dialect : Dialect} (hindex : dialect.format.has .plainIndex = true) (levels : Nat) :
    SpreadsReads dialect levels := by
  induction levels with
  | zero =>
      intro place next i h
      cases h
  | succ levels ih =>
      intro place next i h
      obtain ⟨fewer, afterCode, parts, hlevels, hcomposed⟩ := readInstruction_composed h
      cases hlevels
      rw [Instruction.objects_eq, List.length_append]
      exact (hcomposed.tally hindex ih).spread ih

/-- Without wider references every node is as far from its storage offset as the place that reading started from. -/
theorem readInstruction_aligned {dialect : Dialect} (hindex : dialect.format.has .plainIndex = true)
    (hnarrow : dialect.format.objectExcess = 0) (levels : Nat) :
    ∀ {place next : Place} {i : Instruction}, readInstruction dialect levels place = .ok i next →
      i.Everywhere fun node => node.position + place.input.offset = place.position + node.storagePosition := by
  induction levels with
  | zero =>
      intro place next i h
      cases h
  | succ levels ih =>
      intro place next i h
      obtain ⟨fewer, afterCode, parts, hlevels, hcomposed⟩ := readInstruction_composed h
      cases hlevels
      have hspans := readInstruction_spans h
      have hreads : SpreadsReads dialect levels := readInstruction_spread hindex levels
      refine Instruction.everywhere_iff.2 ⟨?_, fun c hc => ?_⟩
      · rw [hspans.position, hspans.storagePosition]
      · obtain ⟨before, start, stop, hstart, hread⟩ := (hcomposed.tally hindex hreads).exists_read hreads hc
        rw [hnarrow] at hstart
        intro node hnode
        have haligned := ih hread node hnode
        unfold Spread at hstart
        omega

/-!
### Bodies
-/

/-- The two sizes of an instruction differ by what its references are wider. -/
theorem readInstruction_size {dialect : Dialect} (hindex : dialect.format.has .plainIndex = true) {levels : Nat}
    {place next : Place} {i : Instruction} (h : readInstruction dialect levels place = .ok i next) :
    i.size = i.storageSize + dialect.format.objectExcess * i.objects.length := by
  have hspans := readInstruction_spans h
  have hspread := readInstruction_spread hindex levels h
  have hend := hspans.endPosition
  have hstorage := hspans.storageEnd
  rw [Spread, ← hend, ← hstorage, ← hspans.position, ← hspans.storagePosition] at hspread
  unfold Instruction.endPosition Instruction.storageEnd at hspread
  omega

/-- In a tiling the distance of the address spaces grows from one instruction to the next by what the references are
    wider. -/
theorem Tiles.displaced {excess : Nat} {instructions : List Instruction} {position offset : Nat}
    (h : Tiles position offset instructions)
    (hsize : ∀ i ∈ instructions, i.size = i.storageSize + excess * i.objects.length) {k : Nat} {i : Instruction}
    (hi : instructions[k]? = some i) :
    i.position + offset =
      position + i.storagePosition + excess * ((instructions.take k).flatMap Instruction.objects).length := by
  induction instructions generalizing position offset k with
  | nil => simp at hi
  | cons first rest ih =>
      obtain ⟨hposition, hoffset, -, -, hrest⟩ := h
      cases k with
      | zero =>
          cases hi
          rw [hposition, hoffset]
          rfl
      | succ k =>
          have htail := ih hrest (fun j hj => hsize j (List.mem_cons_of_mem _ hj)) hi
          have hfirst := hsize first (List.mem_cons_self ..)
          unfold Instruction.endPosition Instruction.storageEnd at htail
          rw [List.take_succ_cons, List.flatMap_cons, List.length_append, Nat.mul_add]
          omega

section Bodies

variable {source : Source} {dialect : Dialect}

/-- The position of a top-level instruction exceeds its storage offset by what the references before it are wider. -/
theorem decode_displaced (hindex : dialect.format.has .plainIndex = true) {k : Nat} {i : Instruction}
    (hi : (source.decode dialect).instructions[k]? = some i) :
    i.position = i.storagePosition + dialect.format.objectExcess *
      (((source.decode dialect).instructions.toList.take k).flatMap Instruction.objects).length := by
  have hsizes : ∀ i ∈ (source.decode dialect).instructions.toList,
      i.size = i.storageSize + dialect.format.objectExcess * i.objects.length := by
    intro i hi
    obtain ⟨start, stop, hread⟩ := exists_readInstruction_of_mem_decode (Array.mem_toList_iff.1 hi)
    exact readInstruction_size hindex hread
  rw [← Array.getElem?_toList] at hi
  have hdisplaced := (decode_tiles source dialect).displaced hsizes hi
  omega

/-- Without wider references the two addresses of every node are the same. -/
theorem decode_aligned (hindex : dialect.format.has .plainIndex = true) (hnarrow : dialect.format.objectExcess = 0) :
    (source.decode dialect).Everywhere fun node => node.position = node.storagePosition := by
  intro i hi node hnode
  obtain ⟨start, stop, hread⟩ := exists_readInstruction_of_mem_decode hi
  have hspans := readInstruction_spans hread
  have hnode := readInstruction_aligned hindex hnarrow maxNesting hread node hnode
  obtain ⟨k, hk⟩ := Array.mem_iff_getElem?.1 hi
  have hroot := decode_displaced hindex hk
  rw [hnarrow, Nat.zero_mul, Nat.add_zero, hspans.position, hspans.storagePosition] at hroot
  omega

end Bodies

/-- In formats with integer indices and narrow references the two address spaces are the same at every depth. In formats
    with wide references every size exceeds the storage size by four for each reference in the tree, and the position of
    a top-level instruction exceeds its storage offset by four for each reference before it. -/
theorem decode_addresses (source : Source) (dialect : Dialect) :
    (178 ≤ dialect.format.version → dialect.format.version < 587 →
      (source.decode dialect).Everywhere fun node =>
        node.position = node.storagePosition ∧ node.size = node.storageSize) ∧
    (587 ≤ dialect.format.version →
      ((source.decode dialect).Everywhere fun node =>
        node.size = node.storageSize + 4 * node.objects.length) ∧
      ∀ k i, (source.decode dialect).instructions[k]? = some i →
        i.position = i.storagePosition +
          4 * (((source.decode dialect).instructions.toList.take k).flatMap Instruction.objects).length) := by
  have hindexed : 178 ≤ dialect.format.version → dialect.format.has .plainIndex = true := decide_eq_true
  constructor
  · intro hversion hnarrow i hi node hnode
    have hindex := hindexed hversion
    have hexcess : dialect.format.objectExcess = 0 :=
      if_neg fun hwide => absurd (of_decide_eq_true hwide) (Nat.not_le.2 hnarrow)
    have hsize := decode_everywhere (fun h => readInstruction_size hindex h) source i hi node hnode
    rw [hexcess, Nat.zero_mul, Nat.add_zero] at hsize
    exact ⟨decode_aligned hindex hexcess i hi node hnode, hsize⟩
  · intro hwide
    have hindex := hindexed (Nat.le_trans (by decide) hwide)
    have hexcess : dialect.format.objectExcess = 4 := if_pos (decide_eq_true hwide)
    rw [← hexcess]
    exact ⟨decode_everywhere (fun h => readInstruction_size hindex h) source, fun k i => decode_displaced hindex⟩

/-- An assignment to a local variable, with a hidden instruction in front of the value, and a return. -/
def assignment : Source :=
  ⟨"", [0x0F, 0x00, 1, 0, 0, 0, 0x41, 0, 0, 0, 0, 0, 0, 0, 0, 0, 0, 0, 0, 0, 0x25, 0x04, 0x0B], 27⟩

/-- Stock formats, without native functions and names. -/
def stockDialect (version : Nat) : Dialect := ⟨.ofFormat ⟨version, 0⟩, .empty, fun _ => none⟩

theorem decode_addresses_assignment :
    (178 ≤ (stockDialect 586).format.version ∧ (stockDialect 586).format.version < 587 ∧
      (assignment.decode (stockDialect 586)).Everywhere fun node =>
        node.position = node.storagePosition ∧ node.size = node.storageSize) ∧
    587 ≤ (stockDialect 587).format.version ∧
      ((assignment.decode (stockDialect 587)).Everywhere fun node =>
        node.size = node.storageSize + 4 * node.objects.length) ∧
      ∃ i, (assignment.decode (stockDialect 587)).instructions[1]? = some i ∧
        (i.position, i.storagePosition) = (25, 21) ∧
        i.position = i.storagePosition +
          4 * (((assignment.decode (stockDialect 587)).instructions.toList.take 1).flatMap
            Instruction.objects).length := by
  obtain ⟨hnarrow, -⟩ := decode_addresses assignment (stockDialect 586)
  obtain ⟨-, hwide⟩ := decode_addresses assignment (stockDialect 587)
  obtain ⟨hsizes, hpositions⟩ := hwide (by decide)
  refine ⟨⟨by decide, by decide, hnarrow (by decide) (by decide)⟩, by decide, hsizes, ?_⟩
  exact ⟨_, rfl, rfl, hpositions 1 _ rfl⟩

end ScriptBytecode
