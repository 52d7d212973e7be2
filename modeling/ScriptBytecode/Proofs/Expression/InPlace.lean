/-
Module: ScriptBytecode.Proofs.Expression.InPlace
Purpose: Expressions written in place. Here the writer holds everything that a walk works on: the walk, the page and
  the layout state with the scope. It changes the scope for the member of a context and for arguments, sets it back
  afterwards, and can fail at any operand. Main statement: it writes what `Instruction.expression` writes, and whether
  it fails or not, it leaves everything but the comment to append as it was.
Main exports: Desk, InPlace, InPlace.surrounded, Instruction.inPlace, InPlace.of, Instruction.inPlace_eq,
  Desk.Undisturbed, inPlace_undisturbed
-/
import ScriptBytecode.Decompile
import ScriptBytecode.Proofs.Expression.Operations
import ScriptBytecode.Proofs.Encoding.Pieces

namespace ScriptBytecode

/-- What a walk works on. -/
structure Desk where
  walk : Walk
  page : Page
  /-- Index of the instruction that is being written. -/
  index : Nat

namespace Desk

/-- Scope in which the next expression is written. -/
def scope (desk : Desk) : Scope := desk.page.context.scope

/-- Comment to append to the current statement. -/
def remark (desk : Desk) : Option String := desk.page.context.postComment

def withScope (desk : Desk) (scope : Scope) : Desk := { desk with page.context.scope := scope }

def withRemark (desk : Desk) (remark : Option String) : Desk := { desk with page.context.postComment := remark }

theorem withRemark_withRemark (desk : Desk) (first second : Option String) :
    (desk.withRemark first).withRemark second = desk.withRemark second := rfl

end Desk

/-!
### Writing in place
-/

/-- Writes at a desk. What was changed before a failure stays changed. -/
abbrev InPlace := EStateM RenderError Desk

/-- An operand as a call sees it. -/
structure PlacedOperand where
  opcode : Opcode
  precedence : Option Nat
  text : InPlace String

namespace InPlace

variable {α β : Type}

/-- The scope at the desk. -/
def scope : InPlace Scope := return (← get).scope

/-- Leaves a remark, in place of any earlier one. -/
def remark (text : String) : InPlace Unit := modify (·.withRemark (some text))

/-- Acts in another scope. The scope is set back when the action is over, whether it failed or not. -/
def surrounded (change : Scope → Scope) (action : InPlace α) : InPlace α := fun desk =>
  match action (desk.withScope (change desk.scope)) with
  | .ok value after => .ok value (after.withScope desk.scope)
  | .error error after => .error error (after.withScope desk.scope)

/-- An operand that may be left out. -/
def optional (opcode : Opcode) (text : InPlace String) : InPlace String :=
  match opcode with
  | .nothing | .emptyParmValue | .noObject => return ""
  | _ => text

def argument (operand : PlacedOperand) : InPlace String :=
  match operand.opcode with
  | .nothing | .emptyParmValue => return ""
  | _ => operand.text

/-- An argument list. All arguments are written in one scope. -/
def arguments (args : List PlacedOperand) : InPlace String := do
  let parts ← surrounded (fun _ => {}) (args.mapM argument)
  return ", ".intercalate (trimTrailingEmpty parts)

/-- An operand of an operator. -/
def within (operand : PlacedOperand) (wraps : Nat → Bool) : InPlace String := do
  let text ← operand.text
  return if operand.precedence.any wraps then s!"({text})" else text

def binary (name : String) (precedence : Nat) (lhs rhs : PlacedOperand) : InPlace String := do
  let left ← within lhs (precedence < ·)
  let right ← within rhs (precedence ≤ ·)
  return s!"{left} {name} {right}"

def unary (name : String) (operand : PlacedOperand) (isBefore : Bool) : InPlace String := do
  let text ← within operand fun _ => true
  let blank := if endsInWord name then " " else ""
  return if isBefore then s!"{name}{blank}{text}" else s!"{text}{blank}{name}"

/-- A call by name, after what calls in the scope start with. The scope is looked at before the arguments. -/
def plainCall (name : String) (args : List PlacedOperand) : InPlace String := do
  let start := (← scope).callStart
  return s!"{start}{name}({← arguments args})"

/-- A call of a function object. -/
def finalCall (words : Vocabulary) (info : ObjectInfo) (args : List PlacedOperand) : InPlace String :=
  let function := info.function.getD {}
  if function.isOperator then
    match args with
    | [lhs, rhs] => binary info.name function.precedence lhs rhs
    | [operand] => unary info.name operand function.isPreOperator
    | _ => return s!"{info.name}({← arguments args})"
  else
    match info.outer, words.owner with
    | some outer, some owner => do
      if !(← scope).inContext && outer != owner && !function.bypassesOverrides then
        return s!"super({outer}).{info.name}({← arguments args})"
      else
        plainCall info.name args
    | _, _ => plainCall info.name args

/-- A call of a native function. -/
def nativeCall (native : NativeFunction) (args : List PlacedOperand) : InPlace String :=
  match native.style, args with
  | .operator, [lhs, rhs] => binary native.name native.precedence lhs rhs
  | .preOperator, [operand] => unary native.name operand true
  | .postOperator, [operand] => unary native.name operand false
  | _, _ => plainCall native.name args

def call (words : Vocabulary) (target : CallTarget) (args : List PlacedOperand) : InPlace String := do
  match target with
  | .virtual name => plainCall (words.symbols.nameText name) args
  | .global name => return s!"global.{words.symbols.nameText name}({← arguments args})"
  | .delegate _ _ name => return s!"{words.symbols.nameText name}({← arguments args})"
  | .final function =>
    match words.symbols.object function with
    | none => throw (.unresolvedFunction function)
    | some info =>
      if info.kind = .function then finalCall words info args
      else throw (.notAFunction info.name)
  | .native ordinal =>
    match words.native ordinal with
    | some native => nativeCall native args
    | none =>
      remark s!"unresolved native {ordinal}"
      return s!"__native_{ordinal}({← arguments args})"

end InPlace

mutual

/-- An instruction as a source expression, written in place. -/
def Instruction.inPlace (words : Vocabulary) : Instruction → InPlace String
  | ⟨code, opcode, position, size, storagePosition, storageSize, token⟩ =>
    match token with
    | .boolVariable expr | .interfaceContext expr | .eatReturnValue _ expr | .skip _ expr => expr.inPlace words
    | .returnValue value => do
      let value ← value.inPlace words
      return if value.isEmpty then "return" else s!"return {value}"
    | .returnNothing _ => return "return"
    | .gotoLabel label => return s!"goto {← label.inPlace words}"
    | .assert _ _ condition => return s!"assert({← condition.inPlace words})"
    | .letValue target value => do
      let target ← target.inPlace words
      let value ← value.inPlace words
      return s!"{target} = {value}"
    | .context object _ _ _ member => do
      let object ← object.inPlace words
      let member ← InPlace.surrounded
        (fun scope => { inContext := true, inClass := scope.inClass || opcode == .classContext }) (member.inPlace words)
      return s!"{object}.{member}"
    | .structMember property _ _ object => do
      let object ← object.inPlace words
      return s!"{object}.{words.symbols.objectText property}"
    | .arrayElement index array => do
      let index ← index.inPlace words
      let array ← array.inPlace words
      return s!"{array}[{index}]"
    | .dynArrayLength array => return s!"{← array.inPlace words}.Length"
    | .dynArrayMethod array _ args => do
      let array ← array.inPlace words
      return s!"{array}.{arrayMethodName opcode}({← InPlace.arguments (placedOperands words args)})"
    | .call target args => InPlace.call words target (placedOperands words args)
    | .primitiveCast cast interface expr => do
      let inner ← expr.inPlace words
      match interface with
      | some type => return s!"{words.symbols.objectText type}({inner})"
      | none =>
        match castTarget cast (!words.format.has .thirdLayout) with
        | some type => return s!"{type}({inner})"
        | none =>
          InPlace.remark s!"unknown cast 0x{Text.hexUpper 2 cast.toNat}"
          return inner
    | .classCast target expr => do
      let type := words.symbols.objectText target
      let inner ← expr.inPlace words
      return if opcode = .metaCast then s!"class<{type}>({inner})" else s!"{type}({inner})"
    | .structCmp _ lhs rhs => do
      let lhs ← lhs.inPlace words
      let rhs ← rhs.inPlace words
      return if opcode = .structCmpNe then s!"{lhs} != {rhs}" else s!"{lhs} == {rhs}"
    | .delegateCmp lhs rhs => do
      let lhs ← lhs.inPlace words
      let rhs ← rhs.inPlace words
      return if opcode = .delegateNe ∨ opcode = .delegateFunctionNe then s!"{lhs} != {rhs}" else s!"{lhs} == {rhs}"
    | .conditional condition _ yes _ no => do
      let condition ← condition.inPlace words
      let yes ← yes.inPlace words
      let no ← no.inPlace words
      return s!"({condition} ? {yes} : {no})"
    | .newObject outer name flags type template => do
      let outer ← InPlace.optional outer.opcode (outer.inPlace words)
      let name ← InPlace.optional name.opcode (name.inPlace words)
      let flags ← InPlace.optional flags.opcode (flags.inPlace words)
      let parts := trimTrailingEmpty [outer, name, flags]
      let type ← type.inPlace words
      let template ← match template with
        | none => pure ""
        | some template => InPlace.optional template.opcode (template.inPlace words)
      let listed := ", ".intercalate parts
      let settings := if parts.isEmpty then "" else s!"({listed})"
      let suffix := if template.isEmpty then "" else s!"({template})"
      return s!"new{settings} {type}{suffix}"
    | .jump _ | .jumpIfNot _ _ | .filterEditorOnly _ | .switch _ _ _ | .caseLabel _ _
    | .iterator _ _ | .dynArrayIterator _ _ _ _ _ | .labelTable _ | .debugInfo _ _ _ _
    | .defaultParmValue _ _ => throw (.unexpectedToken opcode)
    | token =>
      return Instruction.atomText words ⟨code, opcode, position, size, storagePosition, storageSize, token⟩

/-- Operands of a call. -/
def placedOperands (words : Vocabulary) : List Instruction → List PlacedOperand
  | [] => []
  | arg :: rest => ⟨arg.opcode, arg.binaryPrecedence words, arg.inPlace words⟩ :: placedOperands words rest

end

/-!
### What is written

Something that is written from a scope and a remark can be written in place. Whatever is put together from such pieces
is such a piece again.
-/

namespace InPlace

variable {α β : Type}

/-- Writes in the scope of the desk, and leaves the remark there. -/
def of (render : Scope → Render α) : InPlace α := fun desk =>
  match render desk.scope desk.remark with
  | .ok value remark => .ok value (desk.withRemark remark)
  | .error error remark => .error error (desk.withRemark remark)

theorem pure_eq_of (value : α) : (pure value : InPlace α) = of fun _ => pure value := rfl

theorem throw_eq_of (error : RenderError) : (throw error : InPlace α) = of fun _ => throw error := rfl

theorem remark_eq_of (text : String) : remark text = of fun _ => Render.remark text := rfl

theorem scope_bind_of (render : Scope → Scope → Render α) :
    (scope >>= fun outer => of (render outer)) = of fun outer => render outer outer := rfl

theorem ite_of (condition : Prop) [Decidable condition] (yes no : Scope → Render α) :
    (if condition then of yes else of no) = of fun scope => if condition then yes scope else no scope := by
  split <;> rfl

theorem of_ok {render : Scope → Render α} {desk : Desk} {value : α} {after : Option String}
    (h : render desk.scope desk.remark = .ok value after) : of render desk = .ok value (desk.withRemark after) := by
  rw [of, h]

theorem of_error {render : Scope → Render α} {desk : Desk} {error : RenderError} {after : Option String}
    (h : render desk.scope desk.remark = .error error after) :
    of render desk = .error error (desk.withRemark after) := by
  rw [of, h]

theorem of_bind_of (first : Scope → Render α) (next : α → Scope → Render β) :
    (of first >>= fun value => of (next value)) = of fun scope => first scope >>= fun value => next value scope := by
  funext desk
  change EStateM.bind (of first) _ desk = _
  cases hfirst : first desk.scope desk.remark with
  | error error after =>
      have hboth : (first desk.scope >>= fun value => next value desk.scope) desk.remark = .error error after := by
        change EStateM.bind _ _ _ = _
        rw [EStateM.bind, hfirst]
      rw [EStateM.bind, of_error hfirst, of_error hboth]
  | ok value after =>
      rw [EStateM.bind, of_ok hfirst]
      change of (next value) (desk.withRemark after) = _
      have hboth : (first desk.scope >>= fun value => next value desk.scope) desk.remark =
          next value desk.scope after := by
        change EStateM.bind _ _ _ = _
        rw [EStateM.bind, hfirst]
      cases hnext : next value desk.scope after with
      | error error last =>
          have hlast : of (next value) (desk.withRemark after) = _ := of_error hnext
          rw [hlast, Desk.withRemark_withRemark]
          exact (of_error (hboth.trans hnext)).symm
      | ok result last =>
          have hlast : of (next value) (desk.withRemark after) = _ := of_ok hnext
          rw [hlast, Desk.withRemark_withRemark]
          exact (of_ok (hboth.trans hnext)).symm

/-- A change of the scope lasts as long as what is written in it. -/
theorem surrounded_of (change : Scope → Scope) (render : Scope → Render α) :
    surrounded change (of render) = of fun scope => render (change scope) := by
  funext desk
  rw [surrounded]
  cases hrender : render (change desk.scope) desk.remark with
  | error error after =>
      have hinner : of render (desk.withScope (change desk.scope)) = _ := of_error hrender
      rw [hinner, of_error hrender]
      rfl
  | ok value after =>
      have hinner : of render (desk.withScope (change desk.scope)) = _ := of_ok hrender
      rw [hinner, of_ok hrender]
      rfl

end InPlace

/-- The operand, written in place. -/
def Operand.placed (operand : Operand) : PlacedOperand where
  opcode := operand.opcode
  precedence := operand.precedence
  text := InPlace.of operand.text

namespace InPlace

theorem optional_of (opcode : Opcode) (render : Scope → Render String) :
    optional opcode (of render) = of fun scope => optionalText opcode (render scope) := by
  cases opcode <;> rfl

theorem argument_placed (operand : Operand) :
    argument operand.placed =
      of fun scope => Operand.argument { operand with text := fun _ => operand.text scope } := by
  obtain ⟨opcode, precedence, text⟩ := operand
  cases opcode <;> rfl

theorem mapM_argument_placed (args : List Operand) :
    (args.map Operand.placed).mapM argument =
      of fun scope => args.mapM fun arg => Operand.argument { arg with text := fun _ => arg.text scope } := by
  induction args with
  | nil => rfl
  | cons arg rest ih =>
      simp only [List.map_cons, List.mapM_cons, argument_placed, ih, pure_eq_of, of_bind_of]

theorem arguments_placed (args : List Operand) :
    arguments (args.map Operand.placed) = of fun _ => argumentsText args := by
  simp only [arguments, mapM_argument_placed, surrounded_of, pure_eq_of, of_bind_of]
  rfl

theorem within_placed (operand : Operand) (wraps : Nat → Bool) :
    within operand.placed wraps = of fun scope => operand.within scope wraps := by
  simp only [within, Operand.placed, pure_eq_of, of_bind_of]
  rfl

theorem binary_placed (name : String) (precedence : Nat) (lhs rhs : Operand) :
    binary name precedence lhs.placed rhs.placed = of fun scope => binaryText scope name precedence lhs rhs := by
  simp only [binary, within_placed, pure_eq_of, of_bind_of]
  rfl

theorem unary_placed (name : String) (operand : Operand) (isBefore : Bool) :
    unary name operand.placed isBefore = of fun scope => unaryText scope name operand isBefore := by
  simp only [unary, within_placed, pure_eq_of, of_bind_of]
  rfl

theorem plainCall_placed (name : String) (args : List Operand) :
    plainCall name (args.map Operand.placed) =
      of fun scope => do return s!"{scope.callStart}{name}({← argumentsText args})" := by
  simp only [plainCall, arguments_placed, pure_eq_of, of_bind_of, scope_bind_of]

theorem nativeCall_placed (native : NativeFunction) (args : List Operand) :
    nativeCall native (args.map Operand.placed) = of fun scope => nativeCallText scope native args := by
  have hplain := plainCall_placed native.name args
  obtain ⟨name, style, precedence⟩ := native
  rcases args with - | ⟨first, - | ⟨second, - | ⟨third, rest⟩⟩⟩ <;> cases style <;>
  first
    | exact hplain
    | exact binary_placed _ _ _ _
    | exact unary_placed _ _ _

/-- A call of an operator. -/
theorem finalCall_placed_operator (words : Vocabulary) {info : ObjectInfo}
    (h : (info.function.getD {}).isOperator = true) (args : List Operand) :
    finalCall words info (args.map Operand.placed) = of fun scope => finalCallText words scope info args := by
  simp only [finalCall, finalCallText, h, if_true]
  rcases args with - | ⟨first, - | ⟨second, - | ⟨third, rest⟩⟩⟩
  · exact congrArg (· >>= _) (arguments_placed [])
  · exact unary_placed _ _ _
  · exact binary_placed _ _ _ _
  · have harguments := arguments_placed (first :: second :: third :: rest)
    simp only [List.map_cons] at harguments ⊢
    simp only [harguments, pure_eq_of, of_bind_of]

theorem finalCall_placed (words : Vocabulary) (info : ObjectInfo) (args : List Operand) :
    finalCall words info (args.map Operand.placed) = of fun scope => finalCallText words scope info args := by
  cases hoperator : (info.function.getD {}).isOperator with
  | true => exact finalCall_placed_operator words hoperator args
  | false =>
      simp only [finalCall, finalCallText, hoperator, Bool.false_eq_true, if_false]
      cases info.outer with
      | none => exact plainCall_placed _ _
      | some outer =>
          cases words.owner with
          | none => exact plainCall_placed _ _
          | some owner =>
              simp only [plainCall_placed, arguments_placed, pure_eq_of, of_bind_of, ite_of, scope_bind_of]

theorem call_placed (words : Vocabulary) (target : CallTarget) (args : List Operand) :
    call words target (args.map Operand.placed) = of fun scope => callText words scope target args := by
  cases target with
  | virtual name => exact plainCall_placed _ args
  | global name =>
      simp only [call, arguments_placed, pure_eq_of, of_bind_of]
      rfl
  | delegate _ _ name =>
      simp only [call, arguments_placed, pure_eq_of, of_bind_of]
      rfl
  | final function =>
      simp only [call, callText]
      cases words.symbols.object function with
      | none => rfl
      | some info =>
          simp only [finalCall_placed, throw_eq_of, ite_of]
  | native ordinal =>
      simp only [call, callText]
      cases words.native ordinal with
      | none => simp only [remark_eq_of, arguments_placed, pure_eq_of, of_bind_of]
      | some native => exact nativeCall_placed native args

end InPlace

theorem placedOperands_eq {words : Vocabulary} {args : List Instruction}
    (h : ∀ arg ∈ args, arg.inPlace words = InPlace.of (arg.expression words)) :
    placedOperands words args = (operandList words args).map Operand.placed := by
  induction args with
  | nil => rfl
  | cons arg rest ih =>
      rw [placedOperands, operandList, List.map_cons, h arg List.mem_cons_self,
        ih fun other hother => h other (List.mem_cons_of_mem _ hother)]
      rfl

open InPlace in
/-- An expression written in place is the expression in the scope of the desk, and its remark. -/
theorem Instruction.inPlace_eq (words : Vocabulary) (i : Instruction) :
    i.inPlace words = InPlace.of (i.expression words) := by
  induction i using inductionOnOperands with
  | step i hoperands =>
      obtain ⟨code, opcode, position, size, storagePosition, storageSize, token⟩ := i
      cases token
      all_goals
        simp only [Instruction.operands, Token.operands, List.mem_cons, List.not_mem_nil, or_false, forall_eq_or_imp,
          forall_eq, Option.mem_toList, List.cons_append, List.nil_append] at hoperands
      case dynArrayMethod array distance args =>
        simp only [Instruction.inPlace, Instruction.expression, hoperands.1, placedOperands_eq hoperands.2,
          arguments_placed, pure_eq_of, of_bind_of]
      case call target args =>
        rw [Instruction.inPlace, placedOperands_eq hoperands, call_placed]
        rfl
      case primitiveCast cast interface expr =>
        simp only [Instruction.inPlace, Instruction.expression, hoperands]
        cases interface with
        | some type => simp only [pure_eq_of, of_bind_of]
        | none =>
            cases castTarget cast (!words.format.has .thirdLayout) with
            | some type => simp only [pure_eq_of, of_bind_of]
            | none => simp only [remark_eq_of, pure_eq_of, of_bind_of]
      case newObject outer name flags type template =>
        cases template <;>
          simp only [Instruction.inPlace, Instruction.expression, hoperands, optional_of, pure_eq_of, of_bind_of]
      -- What is left has no operands, or operands that are written one after the other.
      all_goals first
        | rfl
        | simp only [Instruction.inPlace, Instruction.expression, hoperands, surrounded_of, pure_eq_of, of_bind_of]

/-!
### What is left as it was
-/

/-- One desk is as the other, but for the comment to append. -/
structure Desk.Undisturbed (before after : Desk) : Prop where
  blocks : after.walk.blocks = before.walk.blocks
  labels : after.walk.labels = before.walk.labels
  events : after.walk.events = before.walk.events
  previous : after.walk.previous = before.walk.previous
  text : after.page.text = before.page.text
  index : after.index = before.index
  options : after.page.context.options = before.page.context.options
  indent : after.page.context.indent = before.page.context.indent
  pendingIndent : after.page.context.pendingIndent = before.page.context.pendingIndent
  preComment : after.page.context.preComment = before.page.context.preComment
  needsTerminator : after.page.context.needsTerminator = before.page.context.needsTerminator
  scope : after.scope = before.scope

theorem Desk.undisturbed_withRemark (desk : Desk) (remark : Option String) :
    desk.Undisturbed (desk.withRemark remark) := by
  constructor <;> rfl

/-- The top-level instruction at a position, written in place at a desk where nothing else has been done. -/
def Body.renderInPlace (body : Body) (words : Vocabulary) (context : Context) (position : Nat) :
    Except RenderError String × Context :=
  match body.at? position with
  | none => (.error (.noInstructionAt position), context)
  | some i =>
    match i.inPlace words { walk := {}, page := { context }, index := (body.indexOf? position).getD 0 } with
    | .ok text after => (.ok text, after.page.context)
    | .error error after => (.error error, after.page.context)

theorem Body.renderAt_eq_renderInPlace (body : Body) (words : Vocabulary) (context : Context) (position : Nat) :
    body.renderAt words context position = body.renderInPlace words context position := by
  rw [Body.renderAt, Body.renderInPlace]
  cases body.at? position with
  | none => rfl
  | some i =>
      simp only [i.inPlace_eq words, InPlace.of, Desk.scope, Desk.remark]
      cases hrender : i.expression words context.scope context.postComment <;> simp only [EStateM.run, hrender] <;> rfl

/-- Whether it can be written or not, an expression written in place is what `expression` gives, and it leaves
    everything at the desk as it was, but for the comment to append. The instruction at a position is written so. -/
theorem inPlace_undisturbed (words : Vocabulary) :
    (∀ (i : Instruction) (desk : Desk),
      (∃ text after, (i.inPlace words).run desk = .ok text after ∧
        (i.expression words desk.scope).run desk.remark = .ok text after.remark ∧ desk.Undisturbed after) ∨
      ∃ error after, (i.inPlace words).run desk = .error error after ∧
        (i.expression words desk.scope).run desk.remark = .error error after.remark ∧ desk.Undisturbed after) ∧
    ∀ (body : Body) (context : Context) (position : Nat),
      body.renderAt words context position = body.renderInPlace words context position := by
  refine ⟨fun i desk => ?_, fun body context position => body.renderAt_eq_renderInPlace words context position⟩
  rw [i.inPlace_eq words]
  cases hrender : i.expression words desk.scope desk.remark with
  | ok text after =>
      exact .inl ⟨text, desk.withRemark after, InPlace.of_ok hrender, hrender, desk.undisturbed_withRemark after⟩
  | error error after =>
      exact .inr ⟨error, desk.withRemark after, InPlace.of_error hrender, hrender, desk.undisturbed_withRemark after⟩

end ScriptBytecode
