/-
Module: ScriptBytecode.Proofs.Structured.Program
Purpose: Structured programs without `switch`. Such a program is one of `Flow`, and has the layouts that it has there.
Main exports: Stmt, Stmt.toFlowAll, Stmt.sizeAll, Stmt.WellFormedAll, assembleBody, programText
-/
import ScriptBytecode.Proofs.Structured.Flow

namespace ScriptBytecode

/-- A statement of the structured language without `switch`. Statements without control flow, conditions and iterators
    are given as instructions; where these stand is decided by the layout. -/
inductive Stmt where
  | plain (statement : Instruction)
  | ifThen (condition : Instruction) (body : List Stmt)
  | ifElse (condition : Instruction) (yes no : List Stmt)
  | whileLoop (condition : Instruction) (body : List Stmt)
  | doUntil (body : List Stmt) (condition : Instruction)
  | forEach (iterator : Instruction) (body : List Stmt)
  | breakLoop
  | continueLoop

mutual

/-- The statement among those with `switch`. -/
def Stmt.toFlow : Stmt → Flow
  | .plain statement => .plain statement
  | .ifThen condition body => .ifThen condition (toFlowAll body)
  | .ifElse condition yes no => .ifElse condition (toFlowAll yes) (toFlowAll no)
  | .whileLoop condition body => .whileLoop condition (toFlowAll body)
  | .doUntil body condition => .doUntil (toFlowAll body) condition
  | .forEach iterator body => .forEach iterator (toFlowAll body)
  | .breakLoop => .breakLoop
  | .continueLoop => .continueLoop

/-- The sequence of statements among those with `switch`. -/
def Stmt.toFlowAll : List Stmt → List Flow
  | [] => []
  | s :: rest => s.toFlow :: toFlowAll rest

end

/-- Logical size of a sequence of statements. -/
def Stmt.sizeAll (program : List Stmt) : Nat := Flow.sizeAll (toFlowAll program)

/-- Everything in the statements can be written, no branch of an `if` with `else` is empty, `break` stands in loops
    only, and `continue` in `while` loops only. -/
def Stmt.WellFormedAll (words : Vocabulary) (scope : Scope) (enclosing : Enclosing) (program : List Stmt) : Prop :=
  Flow.WellFormedAll words scope enclosing (toFlowAll program)

/-- A program as the instructions of a body. -/
def assembleBody (storage : Storage) (program : List Stmt) : List Instruction :=
  Flow.assembleBody storage (Stmt.toFlowAll program)

/-- A program as source text. -/
def programText (words : Vocabulary) (options : Options) (program : List Stmt) : String :=
  Flow.text words options (Stmt.toFlowAll program)

end ScriptBytecode
