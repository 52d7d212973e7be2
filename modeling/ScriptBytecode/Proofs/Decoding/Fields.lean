/-
Module: ScriptBytecode.Proofs.Decoding.Fields
Purpose: What has been read when a decoder succeeds, as relations without bounds and without layouts. A loop is the
  sequence of its steps, an operand is a run of hidden instructions and the instruction after it, and an instruction is
  its code followed by fields with their values. What every layout makes of its fields is proved once, for all kinds.
Main exports: Decoder.Collects, Decoder.collect_eq_ok_iff, Skips, operand_eq_ok_iff, Filled, Fills, Layout.Yields,
  Layout.decode_eq_ok_iff, Layout.Always, Token.MadeOf, madeOf_layout, Instruction.Composed, readInstruction_composed
-/
import ScriptBytecode.Proofs.Decoding.Locality
import ScriptBytecode.Proofs.Encoding.Pieces

namespace ScriptBytecode

/-!
### Loops

A step that gives something leaves fewer bytes than there were, so the bound of a loop is never met.
-/

namespace Decoder

variable {α : Type} {step : Decoder (Option α)}

/-- The steps of a loop, up to the one that gives nothing. -/
inductive Collects (step : Decoder (Option α)) : Place → List α → Place → Prop where
  | stop {place next : Place} (hstep : step place = .ok none next) : Collects step place [] next
  | more {place middle next : Place} {value : α} {values : List α}
      (hstep : step place = .ok (some value) middle) (hrest : Collects step middle values next) :
      Collects step place (value :: values) next

/-- Steps that give something take bytes. -/
def Advances (step : Decoder (Option α)) : Prop :=
  ∀ {place next value}, step place = .ok (some value) next →
    next.input.rest.length < place.input.rest.length

theorem Collects.of_collectWithin {bound : Nat} {place next : Place} {values : List α}
    (h : collectWithin step bound place = .ok values next) : Collects step place values next := by
  induction bound generalizing place values with
  | zero => cases h
  | succ bound ih =>
      obtain ⟨given, middle, hstep, hrest⟩ := bind_eq_ok h
      cases given with
      | none =>
          cases hrest
          exact .stop hstep
      | some value =>
          obtain ⟨values, last, hvalues, hlast⟩ := bind_eq_ok hrest
          cases hlast
          exact .more hstep (ih hvalues)

theorem Collects.collectWithin (hadvances : Advances step) {place next : Place} {values : List α}
    (h : Collects step place values next) :
    ∀ {bound}, place.input.rest.length < bound → collectWithin step bound place = .ok values next := by
  induction h with
  | stop hstep =>
      intro bound hbound
      obtain ⟨bound, rfl⟩ := Nat.exists_eq_succ_of_ne_zero (Nat.ne_zero_of_lt hbound)
      exact bind_of_ok hstep rfl
  | more hstep _ ih =>
      intro bound hbound
      obtain ⟨bound, rfl⟩ := Nat.exists_eq_succ_of_ne_zero (Nat.ne_zero_of_lt hbound)
      have hfewer := hadvances hstep
      exact bind_of_ok hstep (bind_of_ok (ih (by omega)) rfl)

/-- A loop collects exactly what its steps give. -/
theorem collect_eq_ok_iff (hadvances : Advances step) {place next : Place} {values : List α} :
    collect step place = .ok values next ↔ Collects step place values next := by
  constructor
  · exact Collects.of_collectWithin
  · exact fun h => h.collectWithin hadvances (Nat.lt_succ_self _)

end Decoder

/-!
### Operands
-/

/-- The instruction that the next byte announces. -/
def Place.ahead (dialect : Dialect) (place : Place) : Option Opcode :=
  place.input.rest.head?.map fun first => dialect.table.resolve dialect.natives ⟨first, none⟩

/-- The next byte announces a hidden instruction. -/
def Place.ShowsHidden (dialect : Dialect) (place : Place) : Prop :=
  (place.ahead dialect).any (·.isHidden) = true

/-- Hidden instructions stand between two places, and none follows them. -/
inductive Skips (dialect : Dialect) (levels : Nat) : Place → Place → Prop where
  | stop {place : Place} (hvisible : ¬place.ShowsHidden dialect) : Skips dialect levels place place
  | step {place middle next : Place} {i : Instruction} (hhidden : place.ShowsHidden dialect)
      (hread : readInstruction dialect levels place = .ok i middle)
      (hrest : Skips dialect levels middle next) : Skips dialect levels place next

section Operands

variable {dialect : Dialect} {levels : Nat} {place next : Place}

open Slice.MirrorsOperands (hiddenStep operand_eq)

theorem hiddenStep_eq (instruction : Decoder Instruction) :
    hiddenStep dialect instruction place =
      if (place.ahead dialect).any (·.isHidden) then (do let _ ← instruction; return some ()) place
      else .ok none place := by
  show (if (place.ahead dialect).any (·.isHidden) then _ else _ : Decoder (Option Unit)) place = _
  split <;> rfl

theorem hiddenStep_none :
    hiddenStep dialect (readInstruction dialect levels) place = .ok none next ↔
      ¬place.ShowsHidden dialect ∧ next = place := by
  rw [hiddenStep_eq, Place.ShowsHidden]
  split
  · rename_i hhidden
    constructor
    · intro h
      obtain ⟨i, middle, -, hlast⟩ := bind_eq_ok h
      cases hlast
    · exact fun h => absurd hhidden h.1
  · rename_i hvisible
    constructor
    · rintro ⟨⟩
      exact ⟨hvisible, rfl⟩
    · rintro ⟨-, rfl⟩
      rfl

theorem hiddenStep_some {given : Unit} :
    hiddenStep dialect (readInstruction dialect levels) place = .ok (some given) next ↔
      place.ShowsHidden dialect ∧ ∃ i, readInstruction dialect levels place = .ok i next := by
  rw [hiddenStep_eq, Place.ShowsHidden]
  split
  · rename_i hhidden
    constructor
    · intro h
      obtain ⟨i, middle, hread, hlast⟩ := bind_eq_ok h
      cases hlast
      exact ⟨hhidden, i, hread⟩
    · rintro ⟨-, i, hread⟩
      exact bind_of_ok hread rfl
  · rename_i hvisible
    constructor
    · rintro ⟨⟩
    · exact fun h => absurd h.1 hvisible

theorem hiddenStep_advances : Decoder.Advances (hiddenStep dialect (readInstruction dialect levels)) := by
  intro place next given h
  obtain ⟨-, i, hread⟩ := hiddenStep_some.1 h
  exact readInstruction_advances hread

/-- Reading hidden instructions for as long as there are any. -/
theorem skips_iff : Skips dialect levels place next ↔
    ∃ units, Decoder.Collects (hiddenStep dialect (readInstruction dialect levels)) place units next := by
  constructor
  · intro h
    induction h with
    | stop hvisible => exact ⟨[], .stop (hiddenStep_none.2 ⟨hvisible, rfl⟩)⟩
    | step hhidden hread _ ih =>
        obtain ⟨units, hunits⟩ := ih
        exact ⟨() :: units, .more (hiddenStep_some.2 ⟨hhidden, _, hread⟩) hunits⟩
  · rintro ⟨units, h⟩
    induction h with
    | stop hstep =>
        obtain ⟨hvisible, rfl⟩ := hiddenStep_none.1 hstep
        exact .stop hvisible
    | more hstep _ ih =>
        obtain ⟨hhidden, i, hread⟩ := hiddenStep_some.1 hstep
        exact .step hhidden hread ih

/-- An operand is the first instruction that is not hidden. -/
theorem operand_eq_ok_iff {i : Instruction} :
    Decoder.operand dialect (readInstruction dialect levels) place = .ok i next ↔
      ∃ start, Skips dialect levels place start ∧ readInstruction dialect levels start = .ok i next := by
  rw [operand_eq]
  constructor
  · intro h
    obtain ⟨units, start, hunits, hread⟩ := bind_eq_ok h
    exact ⟨start, skips_iff.2 ⟨units, (Decoder.collect_eq_ok_iff hiddenStep_advances).1 hunits⟩, hread⟩
  · rintro ⟨start, hskips, hread⟩
    obtain ⟨units, hunits⟩ := skips_iff.1 hskips
    exact bind_of_ok ((Decoder.collect_eq_ok_iff hiddenStep_advances).2 hunits) hread

theorem Skips.reaches (h : Skips dialect levels place next) : place.Reaches next := by
  induction h with
  | stop => exact Place.Reaches.preorderly.refl _
  | step _ hread _ ih => exact Place.Reaches.preorderly.trans (readInstruction_spans hread).reaches ih

theorem Skips.not_showsHidden (h : Skips dialect levels place next) : ¬next.ShowsHidden dialect := by
  induction h with
  | stop hvisible => exact hvisible
  | step _ _ _ ih => exact ih

/-- The step of a list of operands: the next one, unless it ends the list. -/
def listStep (dialect : Dialect) (levels : Nat) (terminator : Opcode) : Decoder (Option Instruction) := do
  let next ← Decoder.operand dialect (readInstruction dialect levels)
  return if next.opcode = terminator then none else some next

theorem listStep_some {terminator : Opcode} {i : Instruction} :
    listStep dialect levels terminator place = .ok (some i) next ↔
      Decoder.operand dialect (readInstruction dialect levels) place = .ok i next ∧
        i.opcode ≠ terminator := by
  constructor
  · intro h
    obtain ⟨j, middle, hj, hlast⟩ := bind_eq_ok h
    obtain ⟨hi, rfl⟩ := EStateM.Result.ok.inj hlast
    split at hi
    · cases hi
    · rename_i hother
      cases hi
      exact ⟨hj, hother⟩
  · rintro ⟨hi, hother⟩
    exact bind_of_ok hi (congrArg (EStateM.Result.ok · next) (if_neg hother))

theorem listStep_none {terminator : Opcode} :
    listStep dialect levels terminator place = .ok none next ↔
      ∃ i, Decoder.operand dialect (readInstruction dialect levels) place = .ok i next ∧
        i.opcode = terminator := by
  constructor
  · intro h
    obtain ⟨j, middle, hj, hlast⟩ := bind_eq_ok h
    obtain ⟨hi, rfl⟩ := EStateM.Result.ok.inj hlast
    split at hi
    · rename_i hends
      exact ⟨j, hj, hends⟩
    · cases hi
  · rintro ⟨i, hi, hends⟩
    exact bind_of_ok hi (congrArg (EStateM.Result.ok · next) (if_pos hends))

theorem listStep_advances {terminator : Opcode} :
    Decoder.Advances (listStep dialect levels terminator) := by
  intro place next i h
  obtain ⟨start, hskips, hread⟩ := operand_eq_ok_iff.1 (listStep_some.1 h).1
  have hlength := hskips.reaches.input.offset_add_length
  have hoffset := hskips.reaches.input.offset_le
  have hfewer := readInstruction_advances hread
  omega

/-- A list of operands is collected step by step. -/
theorem operandsUntil_eq_ok_iff {terminator : Opcode} {operands : List Instruction} :
    Decoder.operandsUntil dialect (readInstruction dialect levels) terminator place = .ok operands next ↔
      Decoder.Collects (listStep dialect levels terminator) place operands next :=
  Decoder.collect_eq_ok_iff listStep_advances

end Operands

/-!
### Fields
-/

/-- A field with what was read for it. -/
structure Filled where
  field : Field
  value : field.Value

namespace Filled

/-- The nested instructions that a field holds. -/
def operands : Filled → List Instruction
  | ⟨.operand, i⟩ => [i]
  | ⟨.operandsUntil _, operands⟩ => operands
  | _ => []

/-- The names that a field holds. -/
def names : Filled → List NameRef
  | ⟨.name, name⟩ => [name]
  | ⟨.labels, entries⟩ => entries.map (·.name)
  | _ => []

/-- The list of operands that a field holds, and the kind that ends it. -/
def list? : Filled → Option (Opcode × List Instruction)
  | ⟨.operandsUntil terminator, operands⟩ => some (terminator, operands)
  | _ => none

end Filled

/-- Fields that have been read one after the other, with operands read at `levels` levels left. -/
inductive Fills (dialect : Dialect) (levels : Nat) : Place → List Filled → Place → Prop where
  | nil {place : Place} : Fills dialect levels place [] place
  | cons {place middle next : Place} {part : Filled} {parts : List Filled}
      (hread : part.field.read dialect (readInstruction dialect levels) place = .ok part.value middle)
      (hrest : Fills dialect levels middle parts next) : Fills dialect levels place (part :: parts) next

/-- Every field of the sequence has been read somewhere in it. -/
theorem Fills.exists_read {dialect : Dialect} {levels : Nat} {place next : Place} {parts : List Filled}
    (h : Fills dialect levels place parts next) {part : Filled} (hpart : part ∈ parts) :
    ∃ start stop, part.field.read dialect (readInstruction dialect levels) start =
      .ok part.value stop := by
  induction h with
  | nil => cases hpart
  | cons hread _ ih =>
      rcases List.mem_cons.1 hpart with rfl | hpart
      · exact ⟨_, _, hread⟩
      · exact ih hpart

theorem Fills.reaches {dialect : Dialect} {levels : Nat} {place next : Place} {parts : List Filled}
    (h : Fills dialect levels place parts next) : place.Reaches next := by
  have hR := Place.Reaches.primitiveMoves dialect.format
  induction h with
  | nil => exact hR.refl _
  | cons hread _ ih =>
      exact hR.trans ((hR.field (reaches_readInstruction dialect levels) _).of_ok hread) ih

/-- The layout asks for the fields one after the other, and ends in the value when they hold what they do. -/
inductive Layout.Yields {α : Type} : Layout α → List Filled → α → Prop where
  | done {value : α} : Yields (.done value) [] value
  | read {field : Field} {next : field.Value → Layout α} {value : field.Value} {parts : List Filled} {result : α}
      (hnext : Yields (next value) parts result) : Yields (.read field next) (⟨field, value⟩ :: parts) result

/-- To read a layout is to read the fields that it asks for. -/
theorem Layout.decode_eq_ok_iff {α : Type} {dialect : Dialect} {levels : Nat} {layout : Layout α}
    {place next : Place} {value : α} :
    layout.decode dialect (readInstruction dialect levels) place = .ok value next ↔
      ∃ parts, layout.Yields parts value ∧ Fills dialect levels place parts next := by
  induction layout generalizing place with
  | done result =>
      constructor
      · rintro ⟨⟩
        exact ⟨[], .done, .nil⟩
      · rintro ⟨parts, ⟨⟩, ⟨⟩⟩
        rfl
  | read field rest ih =>
      constructor
      · intro h
        obtain ⟨first, middle, hfirst, hrest⟩ := bind_eq_ok h
        obtain ⟨parts, hyields, hfills⟩ := (ih first).1 hrest
        exact ⟨⟨field, first⟩ :: parts, .read hyields, @Fills.cons _ _ _ _ _ ⟨field, first⟩ _ hfirst hfills⟩
      · rintro ⟨parts, hyields, hfills⟩
        cases hyields with
        | read hyields =>
            cases hfills with
            | cons hfirst hrest => exact bind_of_ok hfirst ((ih _).2 ⟨_, hyields, hrest⟩)

/-- Whatever the fields of the layout hold, the value that it ends in has the property `post` together with them. -/
def Layout.Always {α : Type} (post : List Filled → α → Prop) : Layout α → Prop
  | .done value => post [] value
  | .read field next => ∀ value, (next value).Always fun parts => post (⟨field, value⟩ :: parts)

theorem Layout.Always.of_yields {α : Type} {layout : Layout α} {post : List Filled → α → Prop}
    (hlayout : layout.Always post) {parts : List Filled} {value : α} (h : layout.Yields parts value) :
    post parts value := by
  induction h generalizing post with
  | done => exact hlayout
  | read _ ih => exact ih (hlayout _)

/-- The names that a callee is given by. -/
def CallTarget.names : CallTarget → List NameRef
  | .virtual name | .global name | .delegate _ _ name => [name]
  | .final _ | .native _ => []

namespace Token

variable {α : Type}

/-- The names in a token, those of its operands aside. -/
def names : Token α → List NameRef
  | .instanceDelegate name | .delegateProperty name _ | .nameConst name => [name]
  | .labelTable entries => entries.map (·.name)
  | .call target _ => target.names
  | _ => []

/-- The operands of a token whose number is open, and the kind that ends them in storage. -/
def list? : Token α → Option (Opcode × List α)
  | .defaultParmValue _ statements => some (.endParmValue, statements)
  | .dynArrayMethod _ (some _) args => some (.endFunctionParms, args)
  | .call _ args => some (.endFunctionParms, args)
  | _ => none

/-- The token is one of the kind, and its operands, its names and its list are those of the fields; a list stands in
    the last field. -/
structure MadeOf (format : Format) (opcode : Opcode) (parts : List Filled) (token : Token Instruction) : Prop where
  suits : token.Suits format opcode
  operands : token.operands = parts.flatMap Filled.operands
  names : token.names = parts.flatMap Filled.names
  list : token.list? = parts.getLast?.bind Filled.list?

end Token

/-- The layout of every kind makes its tokens of its fields. Formats decide which fields there are; apart from them
    only the target of a case and the code of a cast do. -/
theorem madeOf_layout (format : Format) (opcode : Opcode) :
    (layout format opcode).Always (Token.MadeOf format opcode) := by
  cases opcode
  case caseLabel =>
    intro target
    change Layout.Always _ (Layout.bind (Layout.given (target != defaultCaseTarget) .operand) _)
    unfold Layout.given
    split
    · rename_i hvalue
      exact fun value => ⟨⟨rfl, hvalue.symm⟩, rfl, rfl, rfl⟩
    · rename_i hvalue
      exact ⟨⟨rfl, (Bool.eq_false_iff.2 hvalue).symm⟩, rfl, rfl, rfl⟩
  case primitiveCast =>
    intro cast
    change Layout.Always _
      (Layout.bind (Layout.given (cast == objectToInterface && format.has .thirdLayout) .object) _)
    unfold Layout.given
    split
    · rename_i hinterface
      exact fun interface expr => ⟨.inl ⟨rfl, hinterface.symm⟩, rfl, rfl, rfl⟩
    · rename_i hinterface
      exact fun expr => ⟨.inl ⟨rfl, (Bool.eq_false_iff.2 hinterface).symm⟩, rfl, rfl, rfl⟩
  all_goals simp only [layout, Layout.given, Layout.call]
  all_goals repeat' split
  all_goals repeat' (intro _)
  all_goals constructor
  all_goals simp [Token.Suits, CallTarget.Suits, Token.operands, Filled.operands, Token.names, CallTarget.names,
    Filled.names, Token.list?, Filled.list?, *]

/-!
### Addresses

Layouts do not look at the addresses of the instructions that they read, so operands that are the same but for their
addresses make tokens that are.
-/

/-- Values that are the same but for the addresses of instructions. -/
def Field.Same : (field : Field) → field.Value → field.Value → Prop
  | .operand, i, j => i.bare = j.bare
  | .operandsUntil _, operands, operands' => operands.map (·.bare) = operands'.map (·.bare)
  | .byte, value, value' | .word, value, value' | .int, value, value' | .single, value, value'
  | .ansiString, value, value' | .wideString, value, value' | .name, value, value' | .object, value, value'
  | .labels, value, value' | .optionalTerminator, value, value' => value = value'

/-- Fields that hold the same but for the addresses of instructions. -/
inductive Filled.Same : Filled → Filled → Prop where
  | mk {field : Field} {value value' : field.Value} (h : field.Same value value') :
      Filled.Same ⟨field, value⟩ ⟨field, value'⟩

/-- Given fields that hold the same, the layouts end in tokens that are the same, but for addresses. -/
inductive Layout.Alike : Layout (Token Instruction) → Layout (Token Instruction) → Prop where
  | done {token token' : Token Instruction} (h : token'.SameAs token) : Alike (.done token) (.done token')
  | read {field : Field} {next next' : field.Value → Layout (Token Instruction)}
      (hnext : ∀ value value', field.Same value value' → Alike (next value) (next' value')) :
      Alike (.read field next) (.read field next')

theorem Layout.Alike.yields {layout layout' : Layout (Token Instruction)} (h : layout.Alike layout')
    {parts parts' : List Filled} {token : Token Instruction} (hyields : layout.Yields parts token)
    (hparts : List.Forall₂ Filled.Same parts parts') :
    ∃ token', layout'.Yields parts' token' ∧ token'.SameAs token := by
  induction hyields generalizing layout' parts' with
  | done =>
      cases hparts
      cases h with
      | done hsame => exact ⟨_, .done, hsame⟩
  | read _ ih =>
      cases hparts with
      | cons hpart hparts =>
          cases hpart with
          | mk hvalue =>
              cases h with
              | read hnext =>
                  obtain ⟨token', hyields', hsame⟩ := ih (hnext _ _ hvalue) hparts
                  exact ⟨token', .read hyields', hsame⟩

/-- No layout looks at an address. -/
theorem alike_layout (format : Format) (opcode : Opcode) :
    (layout format opcode).Alike (layout format opcode) := by
  cases opcode
  case caseLabel =>
    refine .read fun target target' htarget => ?_
    obtain rfl : target = target' := htarget
    change Layout.Alike (Layout.bind (Layout.given (target != defaultCaseTarget) .operand) _)
      (Layout.bind (Layout.given (target != defaultCaseTarget) .operand) _)
    unfold Layout.given
    split
    · exact .read fun value value' hvalue => .done (congrArg (Token.caseLabel target <| some ·) hvalue)
    · exact .done rfl
  case primitiveCast =>
    refine .read fun cast cast' hcast => ?_
    obtain rfl : cast = cast' := hcast
    change Layout.Alike
      (Layout.bind (Layout.given (cast == objectToInterface && format.has .thirdLayout) .object) _)
      (Layout.bind (Layout.given (cast == objectToInterface && format.has .thirdLayout) .object) _)
    unfold Layout.given
    split
    · refine .read fun interface interface' hinterface => ?_
      obtain rfl : interface = interface' := hinterface
      exact .read fun expr expr' hexpr => .done (congrArg (Token.primitiveCast cast (some interface)) hexpr)
    · exact .read fun expr expr' hexpr => .done (congrArg (Token.primitiveCast cast none) hexpr)
  all_goals simp only [layout, Layout.given, Layout.call]
  all_goals repeat' split
  all_goals repeat' (refine .read fun _ _ hvalue => ?_; simp only [Field.Same] at hvalue)
  all_goals refine .done ?_
  all_goals simp_all [Token.SameAs, foldToken]

/-!
### Instructions
-/

/-- How an instruction has been read: its code, and after it the fields that its kind has in the format. -/
structure Instruction.Composed (dialect : Dialect) (levels : Nat) (i : Instruction) (place afterCode next : Place)
    (parts : List Filled) : Prop where
  code : Decoder.code place = .ok i.code afterCode
  kind : dialect.table.resolve dialect.natives i.code = i.opcode
  yields : (layout dialect.format i.opcode).Yields parts i.token
  fills : Fills dialect levels afterCode parts next

/-- The token of an instruction is made of its fields. -/
theorem Instruction.Composed.madeOf {dialect : Dialect} {levels : Nat} {i : Instruction}
    {place afterCode next : Place} {parts : List Filled}
    (h : i.Composed dialect levels place afterCode next parts) :
    i.token.MadeOf dialect.format i.opcode parts :=
  (madeOf_layout dialect.format i.opcode).of_yields h.yields

/-- A code and the fields of its kind make an instruction. -/
theorem readInstruction_of_decode {dialect : Dialect} {levels : Nat} {place afterCode next : Place} {code : Code}
    {token : Token Instruction} (hcode : Decoder.code place = .ok code afterCode)
    (htoken : (layout dialect.format (dialect.table.resolve dialect.natives code)).decode dialect
      (readInstruction dialect levels) afterCode = .ok token next) :
    ∃ i, readInstruction dialect (levels + 1) place = .ok i next ∧ i.code = code ∧
      i.opcode = dialect.table.resolve dialect.natives code ∧ i.token = token :=
  ⟨_, bind_of_ok rfl (bind_of_ok hcode (bind_of_ok htoken rfl)), rfl, rfl, rfl⟩

/-- An instruction is read as its code and its fields; its operands have one level less. -/
theorem readInstruction_composed {dialect : Dialect} {levels : Nat} {place next : Place} {i : Instruction}
    (h : readInstruction dialect levels place = .ok i next) :
    ∃ fewer afterCode parts, levels = fewer + 1 ∧ i.Composed dialect fewer place afterCode next parts := by
  cases levels with
  | zero => cases h
  | succ fewer =>
      obtain ⟨start, place', hget, h⟩ := bind_eq_ok h
      cases hget
      obtain ⟨code, afterCode, hcode, h⟩ := bind_eq_ok h
      obtain ⟨token, afterToken, htoken, h⟩ := bind_eq_ok h
      cases h
      obtain ⟨parts, hyields, hfills⟩ := Layout.decode_eq_ok_iff.1 htoken
      exact ⟨fewer, afterCode, parts, rfl, hcode, rfl, hyields, hfills⟩

end ScriptBytecode
