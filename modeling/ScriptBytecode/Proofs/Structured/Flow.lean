/-
Module: ScriptBytecode.Proofs.Structured.Flow
Purpose: Structured programs beside their bytecode. A program is a tree of statements with one layout as instructions,
  the one that compilers choose, and one layout as lines of source, the one that a reader expects. The two know nothing
  of each other; that a walk over the first gives the second is shown in `Recovery`. The bytecode of a `switch` says
  where each of its cases leads when it does not match, which is the next case, and never where the `switch` ends.
Main exports: Flow, Storage, Exits, Flow.assembleAll, Flow.assembleBody, Flow.rowsAll, Flow.text, Enclosing,
  Flow.WellFormedAll, Flow.spansAll
-/
import ScriptBytecode.Proofs.Walk.Indentation

namespace ScriptBytecode

/-- A statement of the structured language. Statements without control flow, conditions, iterators, heads of `switch`
    statements and the values of their cases are given as instructions; where these stand is decided by the layout. The
    `default` of a `switch`, if there is one, comes after its cases. Every arm ends with a `break`. -/
inductive Flow where
  | plain (statement : Instruction)
  | ifThen (condition : Instruction) (body : List Flow)
  | ifElse (condition : Instruction) (yes no : List Flow)
  | whileLoop (condition : Instruction) (body : List Flow)
  | doUntil (body : List Flow) (condition : Instruction)
  | forEach (iterator : Instruction) (body : List Flow)
  | switch (head : Instruction) (cases : List (Instruction × List Flow)) (fallback : Option (List Flow))
  | breakLoop
  | continueLoop

/-!
### As instructions
-/

/-- Logical size of a conditional jump. -/
def branchSize (condition : Instruction) : Nat := jumpSize + condition.size

/-- Logical size of the instruction that starts a `foreach`. -/
def iteratorSize (iterator : Instruction) : Nat := jumpSize + iterator.size

/-- Logical size of the instruction that ends a `foreach`. -/
def iteratorPopSize : Nat := 1

/-- Logical size of the label of a `case`. -/
def caseSize (value : Instruction) : Nat := jumpSize + value.size

/-- Logical size of the label of a `default`, which has no value. -/
def defaultSize : Nat := jumpSize

mutual

/-- Logical size of a statement. -/
def Flow.size : Flow → Nat
  | .plain statement => statement.size
  | .ifThen condition body => branchSize condition + sizeAll body
  | .ifElse condition yes no => branchSize condition + sizeAll yes + jumpSize + sizeAll no
  | .whileLoop condition body => branchSize condition + sizeAll body + jumpSize
  | .doUntil body condition => sizeAll body + branchSize condition
  | .forEach iterator body => iteratorSize iterator + sizeAll body + iteratorNextSize + iteratorPopSize
  | .switch head cases fallback => head.size + sizeCases cases + sizeDefault fallback
  | .breakLoop | .continueLoop => jumpSize

/-- Logical size of a sequence of statements. -/
def Flow.sizeAll : List Flow → Nat
  | [] => 0
  | s :: rest => s.size + sizeAll rest

/-- Logical size of the cases of a `switch`. -/
def Flow.sizeCases : List (Instruction × List Flow) → Nat
  | [] => 0
  | (value, body) :: rest => caseSize value + sizeAll body + jumpSize + sizeCases rest

/-- Logical size of the `default` of a `switch`. -/
def Flow.sizeDefault : Option (List Flow) → Nat
  | none => 0
  | some body => defaultSize + sizeAll body + jumpSize

end

/-- What the logical address space leaves open about the instruction at a position: its code, and where it is
    stored. -/
structure Storage where
  code : Nat → Code
  offset : Nat → Nat
  width : Nat → Nat

namespace Storage

/-- An instruction at a position. -/
def instruction (storage : Storage) (opcode : Opcode) (position size : Nat)
    (token : Token Instruction) : Instruction where
  code := storage.code position
  opcode := opcode
  position := position
  size := size
  storagePosition := storage.offset position
  storageSize := storage.width position
  token := token

/-- A statement without control flow at a position. -/
def plain (storage : Storage) (position : Nat) (statement : Instruction) : Instruction :=
  { statement with
    position := position
    storagePosition := storage.offset position
    storageSize := storage.width position }

def branch (storage : Storage) (position target : Nat) (condition : Instruction) : Instruction :=
  storage.instruction .jumpIfNot position (branchSize condition)
    (.jumpIfNot (UInt16.ofNat target) condition)

def jump (storage : Storage) (position target : Nat) : Instruction :=
  storage.instruction .jump position jumpSize (.jump (UInt16.ofNat target))

def iterator (storage : Storage) (position stop : Nat) (iterator : Instruction) : Instruction :=
  storage.instruction .iterator position (iteratorSize iterator)
    (.iterator iterator (UInt16.ofNat stop))

def iteratorNext (storage : Storage) (position : Nat) : Instruction :=
  storage.instruction .iteratorNext position iteratorNextSize .noOperands

def iteratorPop (storage : Storage) (position : Nat) : Instruction :=
  storage.instruction .iteratorPop position iteratorPopSize .noOperands

/-- A `return` without a value. -/
def returnNothing (storage : Storage) (position : Nat) : Instruction :=
  storage.instruction .returnValue position 2
    (.returnValue (storage.instruction .nothing (position + 1) 1 .noOperands))

def endOfScript (storage : Storage) (position : Nat) : Instruction :=
  storage.instruction .endOfScript position 1 .noOperands

/-- What compilers add at the end of a body. -/
def epilogue (storage : Storage) (position : Nat) : List Instruction :=
  [storage.returnNothing position, storage.endOfScript (position + 2)]

/-- The label of a `case`, which leads to `target` if the value is another one. -/
def caseLabel (storage : Storage) (position target : Nat) (value : Instruction) : Instruction :=
  storage.instruction .caseLabel position (caseSize value)
    (.caseLabel (UInt16.ofNat target) (some value))

def defaultLabel (storage : Storage) (position : Nat) : Instruction :=
  storage.instruction .caseLabel position defaultSize (.caseLabel defaultCaseTarget none)

end Storage

/-- Where `break` and `continue` lead; outside loops nowhere. -/
structure Exits where
  stop : Nat := 0
  guard : Nat := 0

mutual

/-- A statement as instructions from a position on. The condition of an `if` jumps to the end of its block; a jump at
    the end of the first block leads over the `else`. A `while` loop ends with a jump back to its condition, a `do`
    loop with a conditional jump to its start. A `foreach` stops at the instruction that takes its iterator away. Each
    `case` leads to what follows its arm, and every arm ends with a jump to the end of the `switch`. -/
def Flow.assemble (storage : Storage) (exits : Exits) (start : Nat) : Flow → List Instruction
  | .plain statement => [storage.plain start statement]
  | .ifThen condition body =>
    let first := start + branchSize condition
    storage.branch start (first + sizeAll body) condition :: assembleAll storage exits first body
  | .ifElse condition yes no =>
    let first := start + branchSize condition
    let second := first + sizeAll yes + jumpSize
    storage.branch start second condition ::
      (assembleAll storage exits first yes ++
        storage.jump (first + sizeAll yes) (second + sizeAll no) ::
          assembleAll storage exits second no)
  | .whileLoop condition body =>
    let first := start + branchSize condition
    let stop := first + sizeAll body + jumpSize
    storage.branch start stop condition ::
      (assembleAll storage ⟨stop, start⟩ first body ++ [storage.jump (first + sizeAll body) start])
  | .doUntil body condition =>
    let test := start + sizeAll body
    assembleAll storage ⟨test + branchSize condition, start⟩ start body ++
      [storage.branch test start condition]
  | .forEach iterator body =>
    let first := start + iteratorSize iterator
    let stop := first + sizeAll body + iteratorNextSize
    storage.iterator start stop iterator ::
      (assembleAll storage ⟨stop, start⟩ first body ++
        [storage.iteratorNext (first + sizeAll body), storage.iteratorPop stop])
  | .switch head cases fallback =>
    let first := start + head.size
    let last := first + sizeCases cases
    let stop := last + sizeDefault fallback
    storage.plain start head ::
      (assembleCases storage stop first cases ++ assembleDefault storage stop last fallback)
  | .breakLoop => [storage.jump start exits.stop]
  | .continueLoop => [storage.jump start exits.guard]

/-- A sequence of statements as instructions from a position on. -/
def Flow.assembleAll (storage : Storage) (exits : Exits) (start : Nat) : List Flow → List Instruction
  | [] => []
  | s :: rest => s.assemble storage exits start ++ assembleAll storage exits (start + s.size) rest

/-- The cases of a `switch` that ends at `stop`, as instructions from a position on. -/
def Flow.assembleCases (storage : Storage) (stop start : Nat) :
    List (Instruction × List Flow) → List Instruction
  | [] => []
  | (value, body) :: rest =>
    let first := start + caseSize value
    let leave := first + sizeAll body
    storage.caseLabel start (leave + jumpSize) value ::
      (assembleAll storage ⟨stop, start⟩ first body ++
        storage.jump leave stop :: assembleCases storage stop (leave + jumpSize) rest)

/-- The `default` of a `switch` that ends at `stop`, as instructions from a position on. -/
def Flow.assembleDefault (storage : Storage) (stop start : Nat) :
    Option (List Flow) → List Instruction
  | none => []
  | some body =>
    let first := start + defaultSize
    storage.defaultLabel start ::
      (assembleAll storage ⟨stop, start⟩ first body ++ [storage.jump (first + sizeAll body) stop])

end

/-- A program as the instructions of a body. -/
def Flow.assembleBody (storage : Storage) (program : List Flow) : List Instruction :=
  assembleAll storage {} 0 program ++ storage.epilogue (sizeAll program)

mutual

/-- Where the `switch` statements in a statement start and end. -/
def Flow.spans (start : Nat) : Flow → List (Nat × Nat)
  | .plain _ | .breakLoop | .continueLoop => []
  | .ifThen condition body | .whileLoop condition body => spansAll (start + branchSize condition) body
  | .ifElse condition yes no =>
    let first := start + branchSize condition
    spansAll first yes ++ spansAll (first + sizeAll yes + jumpSize) no
  | .doUntil body _ => spansAll start body
  | .forEach iterator body => spansAll (start + iteratorSize iterator) body
  | .switch head cases fallback =>
    let first := start + head.size
    let last := first + sizeCases cases
    (start, last + sizeDefault fallback) :: (spansCases first cases ++ spansDefault last fallback)

/-- Where the `switch` statements in a sequence of statements start and end. -/
def Flow.spansAll (start : Nat) : List Flow → List (Nat × Nat)
  | [] => []
  | s :: rest => s.spans start ++ spansAll (start + s.size) rest

/-- Where the `switch` statements in the cases of another one start and end. -/
def Flow.spansCases (start : Nat) : List (Instruction × List Flow) → List (Nat × Nat)
  | [] => []
  | (value, body) :: rest =>
    let first := start + caseSize value
    spansAll first body ++ spansCases (first + sizeAll body + jumpSize) rest

/-- Where the `switch` statements in the `default` of another one start and end. -/
def Flow.spansDefault (start : Nat) : Option (List Flow) → List (Nat × Nat)
  | none => []
  | some body => spansAll (start + defaultSize) body

end

/-!
### As source
-/

/-- The text of an expression, if it can be written. -/
def Instruction.sourceText (words : Vocabulary) (scope : Scope) (i : Instruction) : String :=
  match (i.expression words scope).run none with
  | .ok text _ => text
  | .error _ _ => ""

/-- The line of a statement without control flow, with its comment. -/
def Instruction.sourceLine (words : Vocabulary) (scope : Scope) (i : Instruction) : Line :=
  match (i.statement words scope false).run none with
  | .ok (.plain text terminated) remark =>
    { position := i.position, text, terminated, postComment := remark }
  | _ => { position := i.position, text := "" }

/-- Lines at one depth. -/
def rowsAt (depth : Nat) (texts : List String) : List Row := texts.map fun text => ⟨depth, 0, text⟩

/-- A block with its header, its lines and its footer. -/
def blockRows (options : Options) (depth : Nat) (header : String) (inner : List Row)
    (footer : Option String) : List Row :=
  rowsAt depth (options.openBraces header) ++ inner ++ rowsAt depth (options.closeBraces footer)

/-- The value that a `switch` looks at. -/
def Instruction.switchText (words : Vocabulary) (scope : Scope) (i : Instruction) : String :=
  match i.token with
  | .switch _ _ value => value.sourceText words scope
  | _ => ""

/-- The line of a label of a `switch`, which has no semicolon. -/
def labelLine (text : String) (remark : Option String) : Line :=
  { position := 0, text, postComment := remark }

/-- The line of the label of a `case`, with the comment of its value. -/
def Instruction.caseLine (words : Vocabulary) (scope : Scope) (value : Instruction) : Line :=
  match (value.expression words scope).run none with
  | .ok text remark => labelLine s!"case {text}:" remark
  | .error _ _ => labelLine "" none

/-- The line of the label of a `default`. -/
def defaultLine : Line := labelLine "default:" none

/-- An arm of a `switch`: its label, its lines and its `break` below the label. -/
def armRows (options : Options) (depth : Nat) (label : Line) (inner : List Row) : List Row :=
  rowsAt depth [label.written options] ++ inner ++ rowsAt (depth + 1) ["break;"]

mutual

/-- A statement as lines of source. -/
def Flow.rows (words : Vocabulary) (scope : Scope) (options : Options) (depth : Nat) :
    Flow → List Row
  | .plain statement => rowsAt depth [(statement.sourceLine words scope).written options]
  | .ifThen condition body =>
    blockRows options depth s!"if({condition.sourceText words scope})"
      (rowsAll words scope options (depth + 1) body) none
  | .ifElse condition yes no =>
    blockRows options depth s!"if({condition.sourceText words scope})"
      (rowsAll words scope options (depth + 1) yes ++ rowsAt depth options.elseBraces ++
        rowsAll words scope options (depth + 1) no) none
  | .whileLoop condition body =>
    blockRows options depth s!"while({condition.sourceText words scope})"
      (rowsAll words scope options (depth + 1) body) none
  | .doUntil body condition =>
    blockRows options depth "do" (rowsAll words scope options (depth + 1) body)
      (some s!"until({condition.sourceText words scope});")
  | .forEach iterator body =>
    blockRows options depth s!"foreach {iterator.sourceText words scope}"
      (rowsAll words scope options (depth + 1) body) none
  | .switch head cases fallback =>
    blockRows options depth s!"switch({head.switchText words scope})"
      (rowsCases words scope options (depth + 1) cases ++
        rowsDefault words scope options (depth + 1) fallback) none
  | .breakLoop => rowsAt depth ["break;"]
  | .continueLoop => rowsAt depth ["continue;"]

/-- A sequence of statements as lines of source. -/
def Flow.rowsAll (words : Vocabulary) (scope : Scope) (options : Options) (depth : Nat) :
    List Flow → List Row
  | [] => []
  | s :: rest => s.rows words scope options depth ++ rowsAll words scope options depth rest

/-- The cases of a `switch` as lines of source. -/
def Flow.rowsCases (words : Vocabulary) (scope : Scope) (options : Options) (depth : Nat) :
    List (Instruction × List Flow) → List Row
  | [] => []
  | (value, body) :: rest =>
    armRows options depth (value.caseLine words scope) (rowsAll words scope options (depth + 1) body) ++
      rowsCases words scope options depth rest

/-- The `default` of a `switch` as lines of source. -/
def Flow.rowsDefault (words : Vocabulary) (scope : Scope) (options : Options) (depth : Nat) :
    Option (List Flow) → List Row
  | none => []
  | some body =>
    armRows options depth defaultLine (rowsAll words scope options (depth + 1) body)

end

/-- A program as source text. -/
def Flow.text (words : Vocabulary) (options : Options) (program : List Flow) : String :=
  String.join ((rowsAll words {} options 0 program).map (Row.render options options.initialIndent))

/-!
### Well-formed programs
-/

/-- The expression can be written. -/
def Instruction.Renders (words : Vocabulary) (scope : Scope) (i : Instruction) : Prop :=
  ∃ text remark, (i.expression words scope).run none = .ok text remark

/-- The instruction is a statement without control flow that can be written and is not empty. -/
structure Instruction.IsPlain (words : Vocabulary) (scope : Scope) (i : Instruction) : Prop where
  size : 0 < i.size
  shown : i.opcode.isHidden = false
  written : ∃ text terminated remark, text ≠ "" ∧
    (i.statement words scope false).run none = .ok (.plain text terminated) remark

/-- The innermost loop around a statement, as far as `break` and `continue` ask for it. -/
inductive Enclosing where
  | noLoop
  | whileLoop
  | otherLoop
deriving DecidableEq

/-- The instruction is the head of a `switch` over a value that can be written. -/
structure Instruction.IsSwitchHead (words : Vocabulary) (scope : Scope) (i : Instruction) : Prop where
  size : 0 < i.size
  opcode : i.opcode = .switch
  token : ∃ property width value, i.token = .switch property width value ∧ value.Renders words scope

mutual

/-- Everything in the statement can be written, no branch of an `if` with `else` is empty, a `switch` has a `case`,
    `break` stands in loops and `switch` statements only, and `continue` in `while` loops only. -/
def Flow.WellFormed (words : Vocabulary) (scope : Scope) (enclosing : Enclosing) : Flow → Prop
  | .plain statement => statement.IsPlain words scope
  | .ifThen condition body =>
    condition.Renders words scope ∧ WellFormedAll words scope enclosing body
  | .ifElse condition yes no =>
    condition.Renders words scope ∧ yes ≠ [] ∧ no ≠ [] ∧
      WellFormedAll words scope enclosing yes ∧ WellFormedAll words scope enclosing no
  | .whileLoop condition body =>
    condition.Renders words scope ∧ WellFormedAll words scope .whileLoop body
  | .doUntil body condition =>
    condition.Renders words scope ∧ WellFormedAll words scope .otherLoop body
  | .forEach iterator body =>
    iterator.Renders words scope ∧ WellFormedAll words scope .otherLoop body
  | .switch head cases fallback =>
    head.IsSwitchHead words scope ∧ cases ≠ [] ∧ WellFormedCases words scope cases ∧
      WellFormedDefault words scope fallback
  | .breakLoop => enclosing ≠ .noLoop
  | .continueLoop => enclosing = .whileLoop

/-- Every statement of the sequence is well formed. -/
def Flow.WellFormedAll (words : Vocabulary) (scope : Scope) (enclosing : Enclosing) :
    List Flow → Prop
  | [] => True
  | s :: rest => s.WellFormed words scope enclosing ∧ WellFormedAll words scope enclosing rest

/-- Every case can be written. A `break` in it leaves the `switch`, and a `continue` has no loop that it could mean. -/
def Flow.WellFormedCases (words : Vocabulary) (scope : Scope) :
    List (Instruction × List Flow) → Prop
  | [] => True
  | (value, body) :: rest =>
    value.Renders words scope ∧ WellFormedAll words scope .otherLoop body ∧
      WellFormedCases words scope rest

def Flow.WellFormedDefault (words : Vocabulary) (scope : Scope) : Option (List Flow) → Prop
  | none => True
  | some body => WellFormedAll words scope .otherLoop body

end

end ScriptBytecode
