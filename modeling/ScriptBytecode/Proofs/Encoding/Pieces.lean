/-
Module: ScriptBytecode.Proofs.Encoding.Pieces
Purpose: Instructions as what is stored of them. A token of a kind is a sequence of pieces in storage order: numbers,
  texts, references, nested instructions. `Token.Suits` says which tokens a kind has in a format, and the main lemma
  that the layout of a kind, given the pieces of a token, makes up that token again. No bytes are involved.
Main exports: Instruction.fold, Instruction.bare, Terminator, Piece, Token.Suits, Token.pieces, Accepts, accepts_pieces
-/
import Mathlib.Tactic.FinCases
import ScriptBytecode.Layout

namespace ScriptBytecode

/-!
### Folding
-/

section
variable {β : Type} (f : Code → Opcode → Token β → β)

mutual

/-- What `f` makes of an instruction, given what it makes of the operands. Addresses play no part. -/
def Instruction.fold : Instruction → β
  | ⟨code, opcode, _, _, _, _, token⟩ => f code opcode (foldToken token)

/-- The token with its operands folded. -/
def foldToken : Token Instruction → Token β
  | .noOperands => .noOperands
  | .variableRef object => .variableRef object
  | .undefinedVariable => .undefinedVariable
  | .boolVariable expr => .boolVariable expr.fold
  | .instanceDelegate name => .instanceDelegate name
  | .delegateProperty name property => .delegateProperty name property
  | .defaultParmValue size statements => .defaultParmValue size (foldList statements)
  | .intConst value => .intConst value
  | .floatConst value => .floatConst value
  | .byteConst value => .byteConst value
  | .stringConst value => .stringConst value
  | .nameConst name => .nameConst name
  | .objectConst object => .objectConst object
  | .rotatorConst pitch yaw roll => .rotatorConst pitch yaw roll
  | .vectorConst x y z => .vectorConst x y z
  | .rangeConst low high => .rangeConst low high
  | .returnValue value => .returnValue value.fold
  | .returnNothing object => .returnNothing object
  | .jump target => .jump target
  | .jumpIfNot target condition => .jumpIfNot target condition.fold
  | .filterEditorOnly target => .filterEditorOnly target
  | .switch property size value => .switch property size value.fold
  | .caseLabel target value => .caseLabel target (foldOption value)
  | .iterator expr stop => .iterator expr.fold stop
  | .dynArrayIterator array item withIndex index stop =>
    .dynArrayIterator array.fold item.fold withIndex index.fold stop
  | .gotoLabel label => .gotoLabel label.fold
  | .labelTable entries => .labelTable entries
  | .assert line mode condition => .assert line mode condition.fold
  | .debugInfo version line column mode => .debugInfo version line column mode
  | .letValue target value => .letValue target.fold value.fold
  | .eatReturnValue property expr => .eatReturnValue property expr.fold
  | .skip size expr => .skip size expr.fold
  | .context object skip field fieldSize member => .context object.fold skip field fieldSize member.fold
  | .interfaceContext expr => .interfaceContext expr.fold
  | .structMember property owner flags object => .structMember property owner flags object.fold
  | .arrayElement index array => .arrayElement index.fold array.fold
  | .dynArrayLength array => .dynArrayLength array.fold
  | .dynArrayMethod array skip args => .dynArrayMethod array.fold skip (foldList args)
  | .call target args => .call target (foldList args)
  | .primitiveCast cast interface expr => .primitiveCast cast interface expr.fold
  | .classCast target expr => .classCast target expr.fold
  | .structCmp type lhs rhs => .structCmp type lhs.fold rhs.fold
  | .delegateCmp lhs rhs => .delegateCmp lhs.fold rhs.fold
  | .conditional condition yesSkip yes noSkip no =>
    .conditional condition.fold yesSkip yes.fold noSkip no.fold
  | .newObject outer name flags type template =>
    .newObject outer.fold name.fold flags.fold type.fold (foldOption template)
  | .unknown => .unknown

/-- Operands, folded one by one. -/
def foldList : List Instruction → List β
  | [] => []
  | i :: rest => i.fold :: foldList rest

/-- An operand that may be left out, folded. -/
def foldOption : Option Instruction → Option β
  | none => none
  | some i => some i.fold
end

@[simp] theorem foldList_eq_map (operands : List Instruction) :
    foldList f operands = operands.map (·.fold f) := by
  induction operands with
  | nil => rfl
  | cons i rest ih => rw [foldList, ih, List.map_cons]

@[simp] theorem foldOption_eq_map (operand : Option Instruction) :
    foldOption f operand = operand.map (·.fold f) := by
  cases operand <;> rfl

theorem Instruction.fold_eq (i : Instruction) : i.fold f = f i.code i.opcode (foldToken f i.token) := by
  cases i; rfl

end

/-- An instruction whose addresses are all zero. -/
def Instruction.unplaced (code : Code) (opcode : Opcode) (token : Token Instruction) : Instruction :=
  { code, opcode, token, position := 0, size := 0, storagePosition := 0, storageSize := 0 }

/-- An instruction without its addresses: codes, kinds and operands only. -/
def Instruction.bare (i : Instruction) : Instruction := i.fold Instruction.unplaced

@[simp] theorem Instruction.fold_unplaced (i : Instruction) : i.fold Instruction.unplaced = i.bare := rfl

@[simp] theorem Instruction.bare_opcode (i : Instruction) : i.bare.opcode = i.opcode := by cases i; rfl

/-!
### Pieces
-/

/-- What ends a list of operands. -/
inductive Terminator where
  | parameters
  | value
deriving Repr, DecidableEq

/-- Kind of the instruction that ends a list. -/
def Terminator.opcode : Terminator → Opcode
  | .parameters => .endFunctionParms
  | .value => .endParmValue

/-- A stored part of an instruction, with what it holds. -/
inductive Piece (α : Type) where
  | byte (value : UInt8)
  | word (value : UInt16)
  | int (value : Int32)
  | single (value : Single)
  | ansiString (text : String)
  | wideString (text : String)
  | name (reference : NameRef)
  | object (reference : ObjectRef)
  | operand (part : α)
  | operandsUntil (terminator : Terminator) (operands : List α)
  | labels (entries : List LabelEntry)
  | optionalTerminator

namespace Piece

variable {α β : Type}

/-- Replaces the operands of a piece. -/
def map (f : α → β) : Piece α → Piece β
  | .byte value => .byte value
  | .word value => .word value
  | .int value => .int value
  | .single value => .single value
  | .ansiString text => .ansiString text
  | .wideString text => .wideString text
  | .name reference => .name reference
  | .object reference => .object reference
  | .operand part => .operand (f part)
  | .operandsUntil terminator operands => .operandsUntil terminator (operands.map f)
  | .labels entries => .labels entries
  | .optionalTerminator => .optionalTerminator

/-- The field that a piece fills. -/
def field : Piece α → Field
  | .byte _ => .byte
  | .word _ => .word
  | .int _ => .int
  | .single _ => .single
  | .ansiString _ => .ansiString
  | .wideString _ => .wideString
  | .name _ => .name
  | .object _ => .object
  | .operand _ => .operand
  | .operandsUntil terminator _ => .operandsUntil terminator.opcode
  | .labels _ => .labels
  | .optionalTerminator => .optionalTerminator

/-- A value of the field holds what the piece does, up to the addresses of instructions. -/
def Holds : (piece : Piece Instruction) → piece.field.Value → Prop
  | .byte value, read => read = value
  | .word value, read => read = value
  | .int value, read => read = value
  | .single value, read => read = value
  | .ansiString text, read => read = text
  | .wideString text, read => read = text
  | .name reference, read => read = reference
  | .object reference, read => read = reference
  | .operand part, read => read.bare = part.bare
  | .operandsUntil _ operands, read => read.map (·.bare) = operands.map (·.bare)
  | .labels entries, read => read = entries
  | .optionalTerminator, _ => True

end Piece

/-- The kind of a call with a given callee. -/
def CallTarget.Suits (format : Format) (opcode : Opcode) : CallTarget → Prop
  | .virtual _ => opcode = .virtualFunction
  | .final _ => opcode = .finalFunction
  | .global _ => opcode = .globalFunction
  | .delegate isLocal _ _ =>
    opcode = .delegateFunction ∧ (isLocal = true → format.has .delegateLocality = true)
  | .native ordinal => opcode = .native ordinal ∨ opcode = .unresolvedNative ordinal

/-- The pieces of a callee. -/
def CallTarget.pieces {α : Type} (format : Format) : CallTarget → List (Piece α)
  | .virtual name | .global name => [.name name]
  | .final function => [.object function]
  | .delegate isLocal property name =>
    (if format.has .delegateLocality then [.byte (if isLocal then 1 else 0)] else []) ++
      [.object property, .name name]
  | .native _ => []

namespace Token

variable {α : Type}

/-- The token is one that instructions of a kind have in a format: its shape is that of the kind, and parts that only
    some formats store are there exactly in those formats. -/
def Suits (format : Format) (opcode : Opcode) : Token α → Prop
  | .noOperands =>
    opcode ∈ [.intZero, .intOne, .boolTrue, .boolFalse, .noObject, .selfObject, .emptyDelegate,
      .iteratorNext, .iteratorPop, .stop, .nothing, .endOfScript, .endFunctionParms, .endParmValue,
      .emptyParmValue]
  | .variableRef _ =>
    opcode ∈ [.localVariable, .instanceVariable, .defaultVariable, .stateVariable, .localOutVariable,
      .nativeParm]
  | .undefinedVariable => opcode = .undefinedVariable
  | .boolVariable _ => opcode = .boolVariable
  | .instanceDelegate _ => opcode = .instanceDelegate
  | .delegateProperty _ property =>
    opcode = .delegateProperty ∧ property.isSome = format.has .delegateProperty
  | .defaultParmValue _ _ => opcode = .defaultParmValue
  | .intConst _ => opcode = .intConst
  | .floatConst _ => opcode = .floatConst
  | .byteConst _ => opcode ∈ [.byteConst, .intConstByte]
  | .stringConst _ => opcode ∈ [.stringConst, .unicodeStringConst]
  | .nameConst _ => opcode = .nameConst
  | .objectConst _ => opcode = .objectConst
  | .rotatorConst _ _ _ => opcode = .rotatorConst
  | .vectorConst _ _ _ => opcode = .vectorConst
  | .rangeConst _ _ => opcode = .rangeConst
  | .returnValue _ => opcode = .returnValue
  | .returnNothing _ => opcode = .returnNothing
  | .jump _ => opcode = .jump
  | .jumpIfNot _ _ => opcode = .jumpIfNot
  | .filterEditorOnly _ => opcode = .filterEditorOnly
  | .switch property _ _ => opcode = .switch ∧ property.isSome = format.has .switchProperty
  | .caseLabel target value => opcode = .caseLabel ∧ value.isSome = (target != defaultCaseTarget)
  | .iterator _ _ => opcode = .iterator
  | .dynArrayIterator _ _ _ _ _ => opcode = .dynArrayIterator
  | .gotoLabel _ => opcode = .gotoLabel
  | .labelTable _ => opcode = .labelTable
  | .assert _ mode _ => opcode = .assert ∧ mode.isSome = format.has .assertMode
  | .debugInfo _ _ _ _ => opcode = .debugInfo
  | .letValue _ _ => opcode ∈ [.letValue, .letBool, .letDelegate]
  | .eatReturnValue _ _ => opcode = .eatReturnValue
  | .skip _ _ => opcode = .skip
  | .context _ _ field _ _ =>
    opcode ∈ [.context, .classContext] ∧ field.isSome = format.has .thirdLayout
  | .interfaceContext _ => opcode = .interfaceContext
  | .structMember _ owner flags _ =>
    opcode = .structMember ∧ owner.isSome = format.has .structOwner ∧
      flags.isSome = format.has .structFlags
  | .arrayElement _ _ => opcode ∈ [.arrayElement, .dynArrayElement]
  | .dynArrayLength _ => opcode = .dynArrayLength
  | .dynArrayMethod _ none [_, _] => opcode ∈ [.dynArrayInsert, .dynArrayRemove]
  | .dynArrayMethod _ none [_] => opcode = .dynArrayAdd
  | .dynArrayMethod _ none _ => False
  | .dynArrayMethod _ (some _) _ =>
    opcode ∈ [.dynArrayAddItem, .dynArrayRemoveItem, .dynArrayInsertItem, .dynArrayFind,
      .dynArrayFindStruct, .dynArraySort]
  | .call target _ => target.Suits format opcode
  | .primitiveCast cast interface _ =>
    (opcode = .primitiveCast ∧
      interface.isSome = (cast == objectToInterface && format.has .thirdLayout)) ∨
    (opcode = .legacyCast cast ∧ interface = none)
  | .classCast _ _ => opcode ∈ [.dynamicCast, .metaCast, .interfaceCast]
  | .structCmp _ _ _ => opcode ∈ [.structCmpEq, .structCmpNe]
  | .delegateCmp _ _ =>
    opcode ∈ [.delegateEq, .delegateNe, .delegateFunctionEq, .delegateFunctionNe]
  | .conditional _ _ _ _ _ => opcode = .conditional
  | .newObject _ _ _ _ template => opcode = .newObject ∧ template.isSome = format.has .newTemplate
  | .unknown => ∃ code, opcode = .unknown code

/-- The pieces of a token in storage order. Terminators that may be left out are always there. -/
def pieces (format : Format) (opcode : Opcode) : Token α → List (Piece α)
  | .noOperands | .undefinedVariable | .unknown => []
  | .variableRef object | .objectConst object | .returnNothing object => [.object object]
  | .boolVariable expr | .returnValue expr | .gotoLabel expr | .interfaceContext expr
  | .dynArrayLength expr => [.operand expr]
  | .instanceDelegate name | .nameConst name => [.name name]
  | .delegateProperty name property => .name name :: property.toList.map .object
  | .defaultParmValue size statements => [.word size, .operandsUntil .value statements]
  | .intConst value => [.int value]
  | .floatConst value => [.single value]
  | .byteConst value => [.byte value]
  | .stringConst text => [if opcode = .unicodeStringConst then .wideString text else .ansiString text]
  | .rotatorConst pitch yaw roll => [.int pitch, .int yaw, .int roll]
  | .vectorConst x y z => [.single x, .single y, .single z]
  | .rangeConst low high => [.single low, .single high]
  | .jump target | .filterEditorOnly target => [.word target]
  | .jumpIfNot target condition => [.word target, .operand condition]
  | .switch property size value => property.toList.map .object ++ [.byte size, .operand value]
  | .caseLabel target value => .word target :: value.toList.map .operand
  | .iterator expr stop => [.operand expr, .word stop]
  | .dynArrayIterator array item withIndex index stop =>
    [.operand array, .operand item, .byte (if withIndex then 1 else 0), .operand index, .word stop]
  | .labelTable entries => [.labels entries]
  | .assert line mode condition => .word line :: (mode.toList.map .byte ++ [.operand condition])
  | .debugInfo version line column mode => [.int version, .int line, .int column, .byte mode]
  | .letValue target value => [.operand target, .operand value]
  | .eatReturnValue property expr => [.object property, .operand expr]
  | .skip size expr => [.word size, .operand expr]
  | .context object distance field fieldSize member =>
    .operand object :: .word distance :: (field.toList.map .object ++ [.byte fieldSize, .operand member])
  | .structMember property owner flags object =>
    .object property :: (owner.toList.map .object ++
      flags.toList.flatMap (fun (first, second) => [.byte first, .byte second]) ++ [.operand object])
  | .arrayElement index array => [.operand index, .operand array]
  | .dynArrayMethod array none args =>
    .operand array :: (args.map .operand ++
      (if format.has .arrayTerminator then [.optionalTerminator] else []))
  | .dynArrayMethod array (some distance) args =>
    [.operand array, .word distance, .operandsUntil .parameters args]
  | .call target args => target.pieces format ++ [.operandsUntil .parameters args]
  | .primitiveCast cast interface expr =>
    (if opcode = .primitiveCast then [.byte cast] else []) ++ interface.toList.map .object ++
      [.operand expr]
  | .classCast target expr => [.object target, .operand expr]
  | .structCmp type lhs rhs => [.object type, .operand lhs, .operand rhs]
  | .delegateCmp lhs rhs => [.operand lhs, .operand rhs, .optionalTerminator]
  | .conditional condition yesSkip yes noSkip no =>
    [.operand condition, .word yesSkip, .operand yes, .word noSkip, .operand no]
  | .newObject outer name flags type template =>
    [.operand outer, .operand name, .operand flags, .operand type] ++ template.toList.map .operand

end Token

/-- Folding the operands of a token folds those of its pieces. -/
theorem pieces_foldToken {β : Type} (f : Code → Opcode → Token β → β) (format : Format)
    (opcode : Opcode) (token : Token Instruction) :
    (foldToken f token).pieces format opcode =
      (token.pieces format opcode).map (Piece.map (·.fold f)) := by
  cases token with
  | caseLabel target value => cases value <;> rfl
  | delegateProperty name property => cases property <;> rfl
  | defaultParmValue size statements => simp [foldToken, Token.pieces, Piece.map]
  | stringConst text => simp only [foldToken, Token.pieces]; split <;> rfl
  | switch property size value => cases property <;> rfl
  | assert line mode condition => cases mode <;> rfl
  | context object skip field fieldSize member => cases field <;> rfl
  | structMember property owner flags object => cases owner <;> cases flags <;> rfl
  | dynArrayMethod array skip args =>
      cases skip with
      | none =>
          simp only [foldToken, Token.pieces, foldList_eq_map]
          split <;> simp [Piece.map, Function.comp_def]
      | some skip => simp [foldToken, Token.pieces, Piece.map]
  | call target args =>
      simp only [foldToken, Token.pieces, foldList_eq_map]
      cases target <;> simp [CallTarget.pieces, Piece.map]
      split <;> rfl
  | primitiveCast cast interface expr =>
      simp only [foldToken, Token.pieces]
      cases interface <;> split <;> rfl
  | newObject outer name flags type template => cases template <;> rfl
  | _ => rfl

/-!
### Layouts

A layout accepts a sequence of pieces if it asks for their fields one after the other, whatever values that hold the
same as the pieces it is given.
-/

/-- The layout asks for the fields of the pieces, and ends in a value with the property `post`. -/
inductive Accepts {β : Type} (post : β → Prop) : List (Piece Instruction) → Layout β → Prop where
  | done {value : β} (hpost : post value) : Accepts post [] (.done value)
  | read {piece : Piece Instruction} {rest : List (Piece Instruction)} {next : piece.field.Value → Layout β}
      (hnext : ∀ value, piece.Holds value → Accepts post rest (next value)) :
      Accepts post (piece :: rest) (.read piece.field next)

namespace Accepts

variable {β : Type} {post : β → Prop} {rest : List (Piece Instruction)}

theorem byte {value : UInt8} {next : UInt8 → Layout β} (h : Accepts post rest (next value)) :
    Accepts post (.byte value :: rest) (.read .byte next) :=
  .read fun | _, rfl => h

theorem word {value : UInt16} {next : UInt16 → Layout β} (h : Accepts post rest (next value)) :
    Accepts post (.word value :: rest) (.read .word next) :=
  .read fun | _, rfl => h

theorem int {value : Int32} {next : Int32 → Layout β} (h : Accepts post rest (next value)) :
    Accepts post (.int value :: rest) (.read .int next) :=
  .read fun | _, rfl => h

theorem single {value : Single} {next : Single → Layout β} (h : Accepts post rest (next value)) :
    Accepts post (.single value :: rest) (.read .single next) :=
  .read fun | _, rfl => h

theorem name {value : NameRef} {next : NameRef → Layout β} (h : Accepts post rest (next value)) :
    Accepts post (.name value :: rest) (.read .name next) :=
  .read fun | _, rfl => h

theorem object {value : ObjectRef} {next : ObjectRef → Layout β} (h : Accepts post rest (next value)) :
    Accepts post (.object value :: rest) (.read .object next) :=
  .read fun | _, rfl => h

theorem ansiString {value : String} {next : String → Layout β} (h : Accepts post rest (next value)) :
    Accepts post (.ansiString value :: rest) (.read .ansiString next) :=
  .read fun | _, rfl => h

theorem wideString {value : String} {next : String → Layout β} (h : Accepts post rest (next value)) :
    Accepts post (.wideString value :: rest) (.read .wideString next) :=
  .read fun | _, rfl => h

theorem labels {value : List LabelEntry} {next : List LabelEntry → Layout β} (h : Accepts post rest (next value)) :
    Accepts post (.labels value :: rest) (.read .labels next) :=
  .read fun | _, rfl => h

/-- An operand is known up to its addresses only. -/
theorem operand {part : Instruction} {next : Instruction → Layout β}
    (h : ∀ read, read.bare = part.bare → Accepts post rest (next read)) :
    Accepts post (.operand part :: rest) (.read .operand next) :=
  .read h

theorem operandsUntil {terminator : Terminator} {operands : List Instruction}
    {next : List Instruction → Layout β}
    (h : ∀ read, foldList Instruction.unplaced read = foldList Instruction.unplaced operands →
      Accepts post rest (next read)) :
    Accepts post (.operandsUntil terminator operands :: rest)
      (.read (.operandsUntil terminator.opcode) next) :=
  .read fun read hread =>
    h read ((foldList_eq_map _ _).trans (Eq.trans hread (foldList_eq_map _ _).symm))

theorem optionalTerminator {next : Unit → Layout β} (h : Accepts post rest (next ())) :
    Accepts post (.optionalTerminator :: rest) (.read .optionalTerminator next) :=
  .read fun _ _ => h

end Accepts

/-- Tokens that are the same up to the addresses of their operands. -/
def Token.SameAs (token read : Token Instruction) : Prop :=
  foldToken Instruction.unplaced read = foldToken Instruction.unplaced token

/-- Methods of dynamic arrays: some have a fixed number of arguments, and a terminator in late formats; the others
    have a list of arguments. -/
theorem accepts_dynArrayMethod {format : Format} {opcode : Opcode} {array : Instruction}
    {distance : Option UInt16} {args : List Instruction}
    (h : (Token.dynArrayMethod array distance args).Suits format opcode) :
    Accepts (Token.dynArrayMethod array distance args).SameAs
      ((Token.dynArrayMethod array distance args).pieces format opcode) (layout format opcode) := by
  cases distance with
  | some distance =>
      rw [Token.Suits] at h
      fin_cases h <;>
        exact .operand fun _ ha => .word (.operandsUntil fun _ hs =>
          .done (congrArg₂ (Token.dynArrayMethod · (some distance) ·) ha hs))
  | none =>
      match args, h with
      | [count], h =>
          obtain rfl : opcode = .dynArrayAdd := h
          have hdone : ∀ {read : Instruction}, read.bare = array.bare → ∀ {last : Instruction},
              last.bare = count.bare → Accepts (Token.dynArrayMethod array none [count]).SameAs []
                (.done (.dynArrayMethod read none [last])) :=
            fun ha _ hc => .done (congrArg₂ (Token.dynArrayMethod · none [·]) ha hc)
          cases hgate : format.has .arrayTerminator with
          | false =>
              simp only [layout, Token.pieces, hgate]
              exact .operand fun _ ha => .operand fun _ hc => hdone ha hc
          | true =>
              simp only [layout, Token.pieces, hgate]
              exact .operand fun _ ha => .operand fun _ hc => .optionalTerminator (hdone ha hc)
      | [first, second], h =>
          have hlayout : layout format opcode = layout format .dynArrayInsert := by
            rw [Token.Suits] at h
            fin_cases h <;> rfl
          have hdone : ∀ {read : Instruction}, read.bare = array.bare → ∀ {one two : Instruction},
              one.bare = first.bare → two.bare = second.bare →
              Accepts (Token.dynArrayMethod array none [first, second]).SameAs []
                (.done (.dynArrayMethod read none [one, two])) := by
            intro read ha one two ho ht
            refine .done ?_
            show Token.dynArrayMethod read.bare none [one.bare, two.bare] =
              Token.dynArrayMethod array.bare none [first.bare, second.bare]
            rw [ha, ho, ht]
          rw [hlayout]
          cases hgate : format.has .arrayTerminator with
          | false =>
              simp only [layout, Token.pieces, hgate]
              exact .operand fun _ ha => .operand fun _ ho => .operand fun _ ht => hdone ha ho ht
          | true =>
              simp only [layout, Token.pieces, hgate]
              exact .operand fun _ ha => .operand fun _ ho => .operand fun _ ht =>
                .optionalTerminator (hdone ha ho ht)

/-- Calls: the callee, then the arguments. -/
theorem accepts_call {format : Format} {opcode : Opcode} {target : CallTarget} {args : List Instruction}
    (h : target.Suits format opcode) :
    Accepts (Token.call target args).SameAs ((Token.call target args).pieces format opcode)
      (layout format opcode) := by
  have hargs : ∀ read : List Instruction,
      foldList Instruction.unplaced read = foldList Instruction.unplaced args →
      Accepts (Token.call target args).SameAs [] (.done (.call target read)) :=
    fun _ ha => .done (congrArg (Token.call target) ha)
  cases target with
  | virtual name => cases h; exact .name (.operandsUntil hargs)
  | final function => cases h; exact .object (.operandsUntil hargs)
  | global name => cases h; exact .name (.operandsUntil hargs)
  | delegate isLocal property name =>
      obtain ⟨rfl, hlocal⟩ := h
      cases hgate : format.has .delegateLocality with
      | false =>
          obtain rfl : isLocal = false := by
            cases isLocal
            · rfl
            · exact absurd (hlocal rfl) (by simp [hgate])
          simp only [layout, Token.pieces, CallTarget.pieces, hgate]
          exact .object (.name (.operandsUntil hargs))
      | true =>
          have hflag : (some (if isLocal then 1 else 0 : UInt8)).any (· != 0) = isLocal := by
            cases isLocal <;> rfl
          simp only [layout, Token.pieces, CallTarget.pieces, hgate]
          refine .byte (.object (.name (.operandsUntil fun read ha => ?_)))
          show Accepts _ [] (.done (Token.call (.delegate (Option.any _ (some _)) property name) read))
          rw [hflag]
          exact hargs read ha
  | native ordinal => rcases h with rfl | rfl <;> exact .operandsUntil hargs

/-- The layout of a kind accepts the pieces of the tokens that suit the kind, and makes up the token again. One case
    for each shape of token; the parts that hang on the format are decided before the layout is opened. -/
theorem accepts_pieces {format : Format} {opcode : Opcode} {token : Token Instruction}
    (h : token.Suits format opcode) :
    Accepts token.SameAs (token.pieces format opcode) (layout format opcode) := by
  cases token with
  | noOperands => rw [Token.Suits] at h; fin_cases h <;> exact .done rfl
  | variableRef object => rw [Token.Suits] at h; fin_cases h <;> exact .object (.done rfl)
  | undefinedVariable => cases h; exact .done rfl
  | boolVariable expr => cases h; exact .operand fun _ he => .done (congrArg Token.boolVariable he)
  | instanceDelegate name => cases h; exact .name (.done rfl)
  | delegateProperty name property =>
      obtain ⟨rfl, hgate⟩ := h
      simp only [layout, ← hgate]
      cases property with
      | none => exact .name (.done rfl)
      | some property => exact .name (.object (.done rfl))
  | defaultParmValue size statements =>
      cases h
      exact .word (.operandsUntil fun _ hs => .done (congrArg (Token.defaultParmValue size) hs))
  | intConst value => cases h; exact .int (.done rfl)
  | floatConst value => cases h; exact .single (.done rfl)
  | byteConst value => rw [Token.Suits] at h; fin_cases h <;> exact .byte (.done rfl)
  | stringConst text =>
      rw [Token.Suits] at h
      fin_cases h
      · exact .ansiString (.done rfl)
      · exact .wideString (.done rfl)
  | nameConst name => cases h; exact .name (.done rfl)
  | objectConst object => cases h; exact .object (.done rfl)
  | rotatorConst pitch yaw roll => cases h; exact .int (.int (.int (.done rfl)))
  | vectorConst x y z => cases h; exact .single (.single (.single (.done rfl)))
  | rangeConst low high => cases h; exact .single (.single (.done rfl))
  | returnValue value => cases h; exact .operand fun _ hv => .done (congrArg Token.returnValue hv)
  | returnNothing object => cases h; exact .object (.done rfl)
  | jump target => cases h; exact .word (.done rfl)
  | jumpIfNot target condition =>
      cases h
      exact .word (.operand fun _ hc => .done (congrArg (Token.jumpIfNot target) hc))
  | filterEditorOnly target => cases h; exact .word (.done rfl)
  | switch property size value =>
      obtain ⟨rfl, hgate⟩ := h
      simp only [layout, ← hgate]
      have hvalue : ∀ read : Instruction, read.bare = value.bare →
          Accepts (Token.switch property size value).SameAs [] (.done (.switch property size read)) :=
        fun _ hv => .done (congrArg (Token.switch property size) hv)
      cases property with
      | none => exact .byte (.operand hvalue)
      | some property => exact .object (.byte (.operand hvalue))
  | caseLabel target value =>
      obtain ⟨rfl, hvalue⟩ := h
      refine .word ?_
      show Accepts _ _ (Layout.given (target != defaultCaseTarget) Layout.operand >>= _)
      rw [← hvalue]
      cases value with
      | none => exact .done rfl
      | some value => exact .operand fun _ hv => .done (congrArg (Token.caseLabel target <| some ·) hv)
  | iterator expr stop =>
      cases h
      exact .operand fun _ he => .word (.done (congrArg (Token.iterator · stop) he))
  | dynArrayIterator array item withIndex index stop =>
      cases h
      refine .operand fun _ ha => .operand fun _ hi => .byte (.operand fun _ hx => .word (.done ?_))
      have hflag : ((if withIndex then 1 else 0 : UInt8) != 0) = withIndex := by cases withIndex <;> rfl
      show Token.dynArrayIterator _ _ _ _ _ = Token.dynArrayIterator _ _ _ _ _
      rw [hflag]
      congr 1
  | gotoLabel label => cases h; exact .operand fun _ hl => .done (congrArg Token.gotoLabel hl)
  | labelTable entries => cases h; exact .labels (.done rfl)
  | assert line mode condition =>
      obtain ⟨rfl, hgate⟩ := h
      simp only [layout, ← hgate]
      have hcondition : ∀ read : Instruction, read.bare = condition.bare →
          Accepts (Token.assert line mode condition).SameAs [] (.done (.assert line mode read)) :=
        fun _ hc => .done (congrArg (Token.assert line mode) hc)
      cases mode with
      | none => exact .word (.operand hcondition)
      | some mode => exact .word (.byte (.operand hcondition))
  | debugInfo version line column mode => cases h; exact .int (.int (.int (.byte (.done rfl))))
  | letValue target value =>
      rw [Token.Suits] at h
      fin_cases h <;>
        exact .operand fun _ ht => .operand fun _ hv => .done (congrArg₂ Token.letValue ht hv)
  | eatReturnValue property expr =>
      cases h
      exact .object (.operand fun _ he => .done (congrArg (Token.eatReturnValue property) he))
  | skip size expr =>
      cases h
      exact .word (.operand fun _ he => .done (congrArg (Token.skip size) he))
  | context object distance field fieldSize member =>
      obtain ⟨hkind, hgate⟩ := h
      have hlayout : layout format opcode = layout format .context := by fin_cases hkind <;> rfl
      rw [hlayout]
      simp only [layout, ← hgate]
      have hmember : ∀ {read : Instruction}, read.bare = object.bare → ∀ last : Instruction,
          last.bare = member.bare → Accepts (Token.context object distance field fieldSize member).SameAs []
            (.done (.context read distance field fieldSize last)) :=
        fun ho _ hm => .done (congrArg₂ (Token.context · distance field fieldSize ·) ho hm)
      cases field with
      | none => exact .operand fun _ ho => .word (.byte (.operand (hmember ho)))
      | some field => exact .operand fun _ ho => .word (.object (.byte (.operand (hmember ho))))
  | interfaceContext expr =>
      cases h
      exact .operand fun _ he => .done (congrArg Token.interfaceContext he)
  | structMember property owner flags object =>
      obtain ⟨rfl, howner, hflags⟩ := h
      simp only [layout, ← howner, ← hflags]
      have hobject : ∀ read : Instruction, read.bare = object.bare →
          Accepts (Token.structMember property owner flags object).SameAs []
            (.done (.structMember property owner flags read)) :=
        fun _ ho => .done (congrArg (Token.structMember property owner flags) ho)
      cases owner <;> cases flags
      · exact .object (.operand hobject)
      · exact .object (.byte (.byte (.operand hobject)))
      · exact .object (.object (.operand hobject))
      · exact .object (.object (.byte (.byte (.operand hobject))))
  | arrayElement index array =>
      rw [Token.Suits] at h
      fin_cases h <;>
        exact .operand fun _ hi => .operand fun _ ha => .done (congrArg₂ Token.arrayElement hi ha)
  | dynArrayLength array => cases h; exact .operand fun _ ha => .done (congrArg Token.dynArrayLength ha)
  | dynArrayMethod array distance args => exact accepts_dynArrayMethod h
  | call target args => exact accepts_call h
  | primitiveCast cast interface expr =>
      have hexpr : ∀ read : Instruction, read.bare = expr.bare →
          Accepts (Token.primitiveCast cast interface expr).SameAs []
            (.done (.primitiveCast cast interface read)) :=
        fun _ he => .done (congrArg (Token.primitiveCast cast interface) he)
      rcases h with ⟨rfl, hgate⟩ | ⟨rfl, rfl⟩
      · refine .byte ?_
        show Accepts _ _ (Layout.given (cast == objectToInterface && format.has .thirdLayout)
          Layout.object >>= _)
        rw [← hgate]
        cases interface with
        | none => exact .operand hexpr
        | some type => exact .object (.operand hexpr)
      · exact .operand hexpr
  | classCast target expr =>
      rw [Token.Suits] at h
      fin_cases h <;> exact .object (.operand fun _ he => .done (congrArg (Token.classCast target) he))
  | structCmp type lhs rhs =>
      rw [Token.Suits] at h
      fin_cases h <;>
        exact .object (.operand fun _ hl => .operand fun _ hr =>
          .done (congrArg₂ (Token.structCmp type) hl hr))
  | delegateCmp lhs rhs =>
      rw [Token.Suits] at h
      fin_cases h <;>
        exact .operand fun _ hl => .operand fun _ hr =>
          .optionalTerminator (.done (congrArg₂ Token.delegateCmp hl hr))
  | conditional condition yesSkip yes noSkip no =>
      cases h
      refine .operand fun _ hc => .word (.operand fun _ hy => .word (.operand fun _ hn => .done ?_))
      show Token.conditional _ _ _ _ _ = Token.conditional _ _ _ _ _
      congr 1
  | newObject outer name flags type template =>
      obtain ⟨rfl, hgate⟩ := h
      simp only [layout, ← hgate]
      cases template with
      | none =>
          refine .operand fun _ ho => .operand fun _ hn => .operand fun _ hf => .operand fun _ ht =>
            .done ?_
          show Token.newObject _ _ _ _ _ = Token.newObject _ _ _ _ _
          congr 1
      | some template =>
          refine .operand fun _ ho => .operand fun _ hn => .operand fun _ hf => .operand fun _ ht =>
            .operand fun _ hm => .done ?_
          show Token.newObject _ _ _ _ _ = Token.newObject _ _ _ _ _
          congr 1
          exact congrArg some hm
  | unknown => obtain ⟨code, rfl⟩ := h; exact .done rfl

end ScriptBytecode
