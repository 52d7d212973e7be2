/-
Module: ScriptBytecode.Instruction
Purpose: Decoded instructions. An instruction is a tree: its token holds the operands of its kind, and
  operands that are expressions are instructions again. Every node keeps two addresses, the logical one in
  which jump targets are given and the storage offset in the blob.
Main exports: CallTarget, LabelEntry, Token, Token.operands, Token.jumpTarget?, Instruction,
  Instruction.visit
-/
import ScriptBytecode.OpcodeTable
import ScriptBytecode.Reference
import ScriptBytecode.Single

namespace ScriptBytecode

/-- Who a call instruction calls. -/
inductive CallTarget where
  /-- Dispatched by name on the context object. -/
  | virtual (name : NameRef)
  /-- Bound to one function object. -/
  | final (function : ObjectRef)
  /-- Dispatched by name, past the overrides of states. -/
  | global (name : NameRef)
  /-- Called through a delegate property. -/
  | delegate (isLocal : Bool) (property : ObjectRef) (name : NameRef)
  /-- Native function of the engine. -/
  | native (ordinal : Nat)
deriving Repr, Inhabited, DecidableEq

/-- One entry of a label table. -/
structure LabelEntry where
  name : NameRef
  position : UInt32
deriving Repr, Inhabited, DecidableEq

/-- Target of the `case` instruction that stands for `default`. -/
def defaultCaseTarget : UInt16 := 0xFFFF

/-- Operands of an instruction, by the shape of its kind. Operands that are expressions are of type `α`
    and stand in the order in which they are stored. -/
inductive Token (α : Type) where
  /-- Constants such as `true` and `none`, terminators, iterator bookkeeping. -/
  | noOperands
  /-- Local, instance, default, state, out and native-parameter references. -/
  | variableRef (object : ObjectRef)
  | undefinedVariable
  | boolVariable (expr : α)
  | instanceDelegate (name : NameRef)
  | delegateProperty (name : NameRef) (property : Option ObjectRef)
  /-- Default value statements of an optional parameter. -/
  | defaultParmValue (size : UInt16) (statements : List α)
  | intConst (value : Int32)
  | floatConst (value : Single)
  | byteConst (value : UInt8)
  | stringConst (value : String)
  | nameConst (name : NameRef)
  | objectConst (object : ObjectRef)
  | rotatorConst (pitch yaw roll : Int32)
  | vectorConst (x y z : Single)
  | rangeConst (low high : Single)
  | returnValue (value : α)
  | returnNothing (object : ObjectRef)
  | jump (target : UInt16)
  | jumpIfNot (target : UInt16) (condition : α)
  | filterEditorOnly (target : UInt16)
  | switch (property : Option ObjectRef) (size : UInt8) (value : α)
  /-- The target is the next case, or `defaultCaseTarget` for `default`, which has no value. -/
  | caseLabel (target : UInt16) (value : Option α)
  | iterator (expr : α) (stop : UInt16)
  | dynArrayIterator (array item : α) (withIndex : Bool) (index : α) (stop : UInt16)
  | gotoLabel (label : α)
  | labelTable (entries : List LabelEntry)
  | assert (line : UInt16) (mode : Option UInt8) (condition : α)
  | debugInfo (version line column : Int32) (mode : UInt8)
  /-- Assignment of a value, a truth value or a delegate. -/
  | letValue (target value : α)
  | eatReturnValue (property : ObjectRef) (expr : α)
  | skip (size : UInt16) (expr : α)
  /-- Object and class context: `object.member`. -/
  | context (object : α) (skip : UInt16) (field : Option ObjectRef) (fieldSize : UInt8) (member : α)
  | interfaceContext (expr : α)
  | structMember (property : ObjectRef) (owner : Option ObjectRef) (flags : Option (UInt8 × UInt8))
      (object : α)
  | arrayElement (index array : α)
  | dynArrayLength (array : α)
  /-- Methods of dynamic arrays. -/
  | dynArrayMethod (array : α) (skip : Option UInt16) (args : List α)
  | call (target : CallTarget) (args : List α)
  /-- Conversion by cast code; the interface is given for conversions of objects to interfaces. -/
  | primitiveCast (cast : UInt8) (interface : Option ObjectRef) (expr : α)
  /-- Dynamic, meta and interface casts. -/
  | classCast (target : ObjectRef) (expr : α)
  | structCmp (type : ObjectRef) (lhs rhs : α)
  | delegateCmp (lhs rhs : α)
  | conditional (condition : α) (yesSkip : UInt16) (yes : α) (noSkip : UInt16) (no : α)
  | newObject (outer name flags type : α) (template : Option α)
  /-- Code without a meaning in the format. -/
  | unknown
deriving Repr, Inhabited

namespace Token

variable {α : Type}

/-- Nested operands in storage order. -/
def operands : Token α → List α
  | .boolVariable e | .returnValue e | .gotoLabel e | .interfaceContext e | .dynArrayLength e => [e]
  | .defaultParmValue _ statements => statements
  | .jumpIfNot _ condition | .assert _ _ condition => [condition]
  | .switch _ _ value => [value]
  | .caseLabel _ value => value.toList
  | .iterator expr _ => [expr]
  | .dynArrayIterator array item _ index _ => [array, item, index]
  | .letValue target value => [target, value]
  | .eatReturnValue _ expr | .skip _ expr => [expr]
  | .context object _ _ _ member => [object, member]
  | .structMember _ _ _ object => [object]
  | .arrayElement index array => [index, array]
  | .dynArrayMethod array _ args => array :: args
  | .call _ args => args
  | .primitiveCast _ _ expr | .classCast _ expr => [expr]
  | .structCmp _ lhs rhs | .delegateCmp lhs rhs => [lhs, rhs]
  | .conditional condition _ yes _ no => [condition, yes, no]
  | .newObject outer name flags type template => [outer, name, flags, type] ++ template.toList
  | _ => []

/-- Address that a control-flow token jumps to. The target of `default` is none. -/
def jumpTarget? : Token α → Option Nat
  | .jump target | .jumpIfNot target _ | .filterEditorOnly target => some target.toNat
  | .caseLabel target _ => if target = defaultCaseTarget then none else some target.toNat
  | .iterator _ stop | .dynArrayIterator _ _ _ _ stop => some stop.toNat
  | _ => none

/-- An operand is smaller than the token that holds it. -/
theorem sizeOf_lt_of_mem_operands [SizeOf α] {token : Token α} {operand : α}
    (h : operand ∈ token.operands) : sizeOf operand < sizeOf token := by
  cases token <;> simp only [operands, List.mem_cons, List.not_mem_nil, or_false, List.mem_append,
    Option.mem_toList] at h
  case defaultParmValue | call => have := List.sizeOf_lt_of_mem h; simp; omega
  case dynArrayMethod =>
    rcases h with rfl | h
    · simp; omega
    · have := List.sizeOf_lt_of_mem h; simp; omega
  case caseLabel => subst h; simp; omega
  case newObject =>
    rcases h with (rfl | rfl | rfl | rfl) | h
    all_goals first | (subst h; simp; omega) | (simp; omega)
  all_goals
    first
    | (subst h; simp; omega)
    | (rcases h with rfl | rfl <;> simp <;> omega)
    | (rcases h with rfl | rfl | rfl <;> simp <;> omega)

end Token

/-- A decoded instruction with everything nested in it. -/
structure Instruction where
  /-- The stored code. -/
  code : Code
  /-- The kind that the code stands for. -/
  opcode : Opcode
  /-- Logical position, in the address space of jump targets. -/
  position : Nat
  /-- Logical size, nested operands included. -/
  size : Nat
  /-- Offset in the blob. -/
  storagePosition : Nat
  /-- Number of bytes in the blob. -/
  storageSize : Nat
  /-- Operands. -/
  token : Token Instruction
deriving Inhabited

namespace Instruction

/-- Logical position just past the instruction. -/
def endPosition (i : Instruction) : Nat := i.position + i.size

/-- Storage offset just past the instruction. -/
def storageEnd (i : Instruction) : Nat := i.storagePosition + i.storageSize

/-- Address that a control-flow instruction jumps to. -/
def jumpTarget? (i : Instruction) : Option Nat := i.token.jumpTarget?

/-- Nested operands in storage order. -/
def operands (i : Instruction) : List Instruction := i.token.operands

/-- An operand is smaller than its instruction. -/
theorem sizeOf_lt_of_mem_operands {i c : Instruction} (h : c ∈ i.operands) :
    sizeOf c < sizeOf i := by
  have := Token.sizeOf_lt_of_mem_operands h
  cases i
  simp at this ⊢
  omega

/-- What holds of an instruction if it holds of its operands holds of every instruction. -/
@[elab_as_elim]
theorem inductionOnOperands {motive : Instruction → Prop}
    (step : ∀ i, (∀ c ∈ i.operands, motive c) → motive i) (i : Instruction) : motive i :=
  step i fun c _ => inductionOnOperands step c
termination_by sizeOf i
decreasing_by exact sizeOf_lt_of_mem_operands ‹_›

/-- The instruction and everything nested in it, depth first, each with its depth. -/
def visitFrom (depth : Nat) (i : Instruction) : List (Nat × Instruction) :=
  (depth, i) :: i.operands.attach.flatMap fun ⟨c, _⟩ => c.visitFrom (depth + 1)
termination_by sizeOf i
decreasing_by exact sizeOf_lt_of_mem_operands ‹_›

/-- The instruction and everything nested in it, from depth zero. -/
def visit (i : Instruction) : List (Nat × Instruction) := i.visitFrom 0

end Instruction

end ScriptBytecode
