/-
Module: ScriptBytecode.Statement
Purpose: Instructions as statements. A plain statement is the text of an expression; instructions that direct the
  flow of control carry the texts that their blocks will need. What becomes of them is decided by the walk.
Main exports: Statement, Instruction.statement
-/
import ScriptBytecode.Expression

namespace ScriptBytecode

/-- What a top-level instruction contributes, before blocks are recovered. -/
inductive Statement where
  /-- A text, with or without a semicolon. -/
  | plain (text : String) (terminated : Bool)
  /-- A comment for a line of its own. -/
  | remark (text : String)
  /-- A jump that is taken when the condition fails. -/
  | branch (target : Nat) (condition : String)
  | jump (target : Nat)
  /-- A block that only the editor runs, up to the target. -/
  | editorOnly (target : Nat)
  | switch (value : String)
  | caseArm (target : Nat) (value : String)
  | defaultArm
  | forEach (header : String) (stop : Nat)
  | iteratorPop
  /-- Nothing. -/
  | silent
deriving Repr, Inhabited, DecidableEq

/-- A top-level instruction as a statement. A `case` that no `switch` is open for cannot be written, whatever its
    value. -/
def Instruction.statement (words : Vocabulary) (scope : Scope) (insideSwitch : Bool)
    (i : Instruction) : Render Statement := do
  match i.token with
  | .jumpIfNot target condition =>
    return .branch target.toNat (← condition.expression words scope)
  | .jump target => return .jump target.toNat
  | .filterEditorOnly target => return .editorOnly target.toNat
  | .switch _ _ value => return .switch (← value.expression words scope)
  | .caseLabel target value =>
    if insideSwitch then
      match value with
      | none => return .defaultArm
      | some value => return .caseArm target.toNat (← value.expression words scope)
    else
      throw .missingSwitch
  | .iterator expr stop =>
    return .forEach s!"foreach {← expr.expression words scope}" stop.toNat
  | .dynArrayIterator array item withIndex index stop =>
    let array ← array.expression words scope
    let item ← item.expression words scope
    if withIndex then
      return .forEach s!"foreach {array}({item}, {← index.expression words scope})" stop.toNat
    else
      return .forEach s!"foreach {array}({item})" stop.toNat
  | .labelTable _ => return .silent
  | .defaultParmValue _ statements =>
    let parts ← statements.mapM (·.expression words scope)
    let shown := "; ".intercalate (parts.filter (!·.isEmpty))
    return .remark s!"DefaultParmValue={shown}"
  | .unknown => return .plain (← i.expression words scope) false
  | .noOperands =>
    if i.opcode = .iteratorPop then return .iteratorPop
    else
      let text ← i.expression words scope
      return .plain text (!text.isEmpty)
  | _ =>
    let text ← i.expression words scope
    return .plain text (!text.isEmpty)

end ScriptBytecode
