/-
Module: ScriptBytecode.Proofs.Hidden.Addresses
Purpose: Instructions whose addresses have changed. How an instruction is written does not depend on the addresses
  of its operands, and of its own it needs only the position and the target. An instruction that was renumbered, with
  its target moved in the same way, is therefore the same statement with the target moved.
Main exports: Instruction.expression_bare, Instruction.statement_bare, Token.retarget, Statement.retarget,
  Instruction.Renumbered, Instruction.Renumbered.statement
-/
import ScriptBytecode.Proofs.Body.Shapes
import ScriptBytecode.Proofs.Encoding.Pieces
import ScriptBytecode.Proofs.Walk.Statements

namespace ScriptBytecode

/-!
### Expressions
-/

theorem Instruction.binaryPrecedence_bare (words : Vocabulary) (i : Instruction) :
    i.bare.binaryPrecedence words = i.binaryPrecedence words := by
  induction i using inductionOnOperands with
  | step i ih =>
      obtain ⟨code, opcode, position, size, storagePosition, storageSize, token⟩ := i
      cases token with
      | skip distance expr => exact ih expr (List.mem_singleton_self expr)
      | call target args =>
          have hlength : foldList Instruction.unplaced args = args.map (·.bare) := foldList_eq_map _ _
          rcases args with - | ⟨first, - | ⟨second, - | ⟨third, rest⟩⟩⟩ <;> cases target <;> rfl
      | _ => rfl

theorem operandList_bare {words : Vocabulary} {args : List Instruction}
    (h : ∀ arg ∈ args, ∀ scope, arg.bare.expression words scope = arg.expression words scope) :
    operandList words (args.map (·.bare)) = operandList words args := by
  induction args with
  | nil => rfl
  | cons arg rest ih =>
      rw [List.map_cons, operandList, operandList, ih fun other hother => h other (List.mem_cons_of_mem _ hother),
        Instruction.bare_opcode, Instruction.binaryPrecedence_bare,
        funext fun scope => h arg (List.mem_cons_self ..) scope]

/-- Addresses play no part in how an expression is written. -/
theorem Instruction.expression_bare (words : Vocabulary) (i : Instruction) (scope : Scope) :
    i.bare.expression words scope = i.expression words scope := by
  induction i using inductionOnOperands generalizing scope with
  | step i hoperands =>
      obtain ⟨code, opcode, position, size, storagePosition, storageSize, token⟩ := i
      have hbare : (Instruction.bare ⟨code, opcode, position, size, storagePosition, storageSize, token⟩).expression
          words scope = Instruction.expression words (.unplaced code opcode (foldToken .unplaced token)) scope := rfl
      rw [hbare]
      cases token
      all_goals
        simp only [Instruction.operands, Token.operands, List.mem_cons, List.not_mem_nil, or_false, forall_eq_or_imp,
          forall_eq, Option.mem_toList, List.cons_append, List.nil_append] at hoperands
        simp only [foldToken, Instruction.unplaced, Instruction.expression, Instruction.fold_unplaced,
          foldList_eq_map, foldOption_eq_map, hoperands, Instruction.bare_opcode]
      case dynArrayMethod array distance args => rw [operandList_bare hoperands.2]
      case call target args => rw [operandList_bare hoperands]
      case newObject outer name flags type template =>
        cases template with
        | none => rfl
        | some template =>
            have htemplate := hoperands.2.2.2.2 template rfl scope
            simp only [Option.map_some, htemplate, Instruction.bare_opcode]

theorem Instruction.bare_token (i : Instruction) : i.bare.token = foldToken .unplaced i.token := by
  cases i
  rfl

/-- Addresses play no part in what an instruction is as a statement. -/
theorem Instruction.statement_bare (words : Vocabulary) (scope : Scope) (insideSwitch : Bool) (i : Instruction) :
    i.bare.statement words scope insideSwitch = i.statement words scope insideSwitch := by
  have hwhole := i.expression_bare words scope
  unfold Instruction.statement
  rw [i.bare_token, hwhole, i.bare_opcode]
  cases i.token
  all_goals
    simp only [foldToken, Instruction.fold_unplaced, foldList_eq_map, foldOption_eq_map, Instruction.expression_bare]
  case caseLabel target value => cases value <;> simp only [Option.map_none, Option.map_some, expression_bare]
  case defaultParmValue distance statements => simp only [List.mapM_map, Function.comp_def, expression_bare]

/-!
### Targets
-/

namespace Token

/-- The token with its target, or the positions of its labels, moved. -/
def retarget {α : Type} (f : Nat → Nat) : Token α → Token α
  | .jump target => .jump (.ofNat (f target.toNat))
  | .jumpIfNot target condition => .jumpIfNot (.ofNat (f target.toNat)) condition
  | .filterEditorOnly target => .filterEditorOnly (.ofNat (f target.toNat))
  | .caseLabel target value =>
    .caseLabel (if target = defaultCaseTarget then target else .ofNat (f target.toNat)) value
  | .iterator expr stop => .iterator expr (.ofNat (f stop.toNat))
  | .dynArrayIterator array item withIndex index stop =>
    .dynArrayIterator array item withIndex index (.ofNat (f stop.toNat))
  | .labelTable entries =>
    .labelTable (entries.map fun entry => { entry with position := .ofNat (f entry.position.toNat) })
  | token => token

end Token

/-- The statement with its target moved. -/
def Statement.retarget (f : Nat → Nat) : Statement → Statement
  | .branch target condition => .branch (f target) condition
  | .jump target => .jump (f target)
  | .editorOnly target => .editorOnly (f target)
  | .caseArm target value => .caseArm (f target) value
  | .forEach header stop => .forEach header (f stop)
  | statement => statement

section

variable {f : Nat → Nat}

theorem toNat_moved16 (hf : ∀ p, f p ≤ p) (target : UInt16) :
    (UInt16.ofNat (f target.toNat)).toNat = f target.toNat := by
  have hle := hf target.toNat
  have hlt := target.toNat_lt
  simp only [UInt16.toNat_ofNat']
  omega

/-- A target that moves back does not become that of a `default`. -/
theorem moved_ne_default (hf : ∀ p, f p ≤ p) {target : UInt16} (h : target ≠ defaultCaseTarget) :
    UInt16.ofNat (f target.toNat) ≠ defaultCaseTarget := by
  intro heq
  have hmoved := toNat_moved16 hf target
  rw [heq] at hmoved
  have hle := hf target.toNat
  have hlt := target.toNat_lt
  have hdefault : defaultCaseTarget.toNat = 65535 := rfl
  exact h (UInt16.toNat_inj.1 (by omega))

namespace Token

variable {α : Type}

theorem jumpTarget?_retarget (hf : ∀ p, f p ≤ p) (token : Token α) :
    (token.retarget f).jumpTarget? = token.jumpTarget?.map f := by
  cases token with
  | caseLabel target value =>
      by_cases hdefault : target = defaultCaseTarget
      · simp [retarget, jumpTarget?, hdefault]
      · simp [retarget, jumpTarget?, hdefault, moved_ne_default hf hdefault, toNat_moved16 hf]
  | _ => simp [retarget, jumpTarget?, toNat_moved16 hf]

theorem condTarget?_retarget (hf : ∀ p, f p ≤ p) (token : Token α) :
    (token.retarget f).condTarget? = token.condTarget?.map f := by
  cases token <;> simp [retarget, condTarget?, toNat_moved16 hf]

theorem caseExit?_retarget (hf : ∀ p, f p ≤ p) (token : Token α) :
    (token.retarget f).caseExit? = token.caseExit?.map (Option.map f) := by
  cases token with
  | caseLabel target value =>
      by_cases hdefault : target = defaultCaseTarget
      · simp [retarget, caseExit?, hdefault]
      · simp [retarget, caseExit?, hdefault, moved_ne_default hf hdefault, toNat_moved16 hf]
  | _ => rfl

theorem isReturn_retarget (token : Token α) : (token.retarget f).isReturn = token.isReturn := by
  cases token <;> rfl

theorem isBareReturn_retarget (token : Token Instruction) :
    (token.retarget f).isBareReturn = token.isBareReturn := by
  cases token <;> rfl

theorem labels_retarget (token : Token α) :
    (token.retarget f).labels =
      token.labels.map fun entry => { entry with position := .ofNat (f entry.position.toNat) } := by
  cases token <;> rfl

end Token

/-- An instruction whose target has moved is the statement whose target has moved. -/
theorem Instruction.statement_retarget (hf : ∀ p, f p ≤ p) (words : Vocabulary) (scope : Scope)
    (insideSwitch : Bool) {i : Instruction} {format : Format} (hsuits : i.token.Suits format i.opcode) :
    Instruction.statement words scope insideSwitch { i with token := i.token.retarget f } =
      Statement.retarget f <$> i.statement words scope insideSwitch := by
  obtain ⟨code, opcode, position, size, storagePosition, storageSize, token⟩ := i
  cases token
  all_goals
    simp only [Instruction.statement, Token.retarget, toNat_moved16 hf, map_bind, map_pure, Statement.retarget]
  case caseLabel target value =>
    cases insideSwitch with
    | false => rfl
    | true =>
        cases value with
        | none => rfl
        | some value =>
            have hdefault : target ≠ defaultCaseTarget := by simpa [Token.Suits] using hsuits.2
            simp only [hdefault, if_true, if_false, toNat_moved16 hf, map_bind, map_pure, Statement.retarget]
  case dynArrayIterator array item withIndex index stop =>
    cases withIndex <;> simp only [map_bind, map_pure, Statement.retarget, if_true, if_false, Bool.false_eq_true]
  case noOperands =>
    split <;> simp only [map_bind, map_pure, Statement.retarget]

/-- An instruction that stands elsewhere in the renumbered code. Its kind and its operands are the same up to the
    addresses of the operands, and its target has moved. -/
structure Instruction.Renumbered (f : Nat → Nat) (i i' : Instruction) : Prop where
  bare : i'.bare = Instruction.bare { i with token := i.token.retarget f }
  position : i'.position = f i.position
  size : i'.size = i.size

namespace Instruction.Renumbered

variable {i i' : Instruction} (h : i.Renumbered f i')

include h

theorem opcode : i'.opcode = i.opcode := by
  rw [← i'.bare_opcode, h.bare, Instruction.bare_opcode]

/-- What is read from a token whatever its operands are is read from the moved token. -/
theorem read {γ : Type} (reader : Token Instruction → γ)
    (hreader : ∀ token, reader (foldToken .unplaced token) = reader token) :
    reader i'.token = reader (i.token.retarget f) := by
  have htoken := congrArg Instruction.token h.bare
  rw [Instruction.bare_token, Instruction.bare_token] at htoken
  rw [← hreader, htoken, hreader]

theorem jumpTarget? (hf : ∀ p, f p ≤ p) : i'.jumpTarget? = i.jumpTarget?.map f := by
  rw [Instruction.jumpTarget?, h.read Token.jumpTarget? fun token => by cases token <;> rfl,
    Token.jumpTarget?_retarget hf]
  rfl

theorem condTarget? (hf : ∀ p, f p ≤ p) : i'.token.condTarget? = i.token.condTarget?.map f := by
  rw [h.read Token.condTarget? fun token => by cases token <;> rfl, Token.condTarget?_retarget hf]

theorem caseExit? (hf : ∀ p, f p ≤ p) : i'.token.caseExit? = i.token.caseExit?.map (Option.map f) := by
  rw [h.read Token.caseExit? fun token => by cases token <;> rfl, Token.caseExit?_retarget hf]

theorem isReturn : i'.token.isReturn = i.token.isReturn := by
  rw [h.read Token.isReturn fun token => by cases token <;> rfl, Token.isReturn_retarget]

theorem isBareReturn : i'.token.isBareReturn = i.token.isBareReturn := by
  rw [h.read Token.isBareReturn, Token.isBareReturn_retarget]
  intro token
  cases token with
  | returnValue value => exact congrArg (· == Opcode.nothing) value.bare_opcode
  | _ => rfl

theorem labels :
    i'.token.labels =
      i.token.labels.map fun entry => { entry with position := .ofNat (f entry.position.toNat) } := by
  rw [h.read Token.labels fun token => by cases token <;> rfl, Token.labels_retarget]

theorem statement (hf : ∀ p, f p ≤ p) (words : Vocabulary) (scope : Scope) (insideSwitch : Bool)
    {format : Format} (hsuits : i.token.Suits format i.opcode) :
    i'.statement words scope insideSwitch = Statement.retarget f <$> i.statement words scope insideSwitch := by
  rw [← i'.statement_bare, h.bare, Instruction.statement_bare, Instruction.statement_retarget hf words scope _ hsuits]

end Instruction.Renumbered

end

end ScriptBytecode
