/-
Module: ScriptBytecode.Walk
Purpose: The walk over the top-level instructions of a body. It turns each instruction into a statement, decides
  from the geometry of jumps which blocks open and close, and records what it decides as events.
Main exports: Setting, Walk, Walk.step, Setting.walk, Setting.events
-/
import ScriptBytecode.Event
import ScriptBytecode.Geometry
import ScriptBytecode.Label
import ScriptBytecode.Statement

namespace ScriptBytecode

/-- What a walk depends on. -/
structure Setting where
  body : Body
  words : Vocabulary
  /-- Scope in which statements are written. -/
  scope : Scope := {}
  /-- Leave out the `return;` that the compiler adds at the end. -/
  suppressImplicitReturn : Bool := true

/-- State of a walk. -/
structure Walk where
  blocks : Blocks := {}
  labels : LabelTable := {}
  events : Array Event := #[]
  /-- Kind of the last instruction that was not hidden. -/
  previous : Option Opcode := none

namespace Walk

/-- Records an event. -/
def emit (walk : Walk) (event : Event) : Walk :=
  { walk with events := walk.events.push event }

/-!
### Blocks

A marker that is due becomes an event, and the chain of open blocks follows it. An `else` takes the place of the
`if` it belongs to.
-/

/-- Closes the innermost block if it is an `if`, without writing anything. -/
def dropIf (walk : Walk) : Walk :=
  match walk.blocks.innermost? with
  | some top =>
    if top.kind = .ifBlock then
      { walk with blocks := ((walk.blocks.cancelEnd top.id).2.leave top.id).2 }
    else walk
  | none => walk

/-- Lets a begin take effect. -/
def enter (walk : Walk) (marker : Marker) : Walk :=
  match marker.kind with
  | .switchBreak => walk.emit (.broke (marker.text.getD "break;"))
  | .elseBlock =>
    let walk := walk.dropIf
    { walk.emit (.alternative marker.block) with blocks := walk.blocks.enter marker }
  | _ =>
    { walk.emit (.opened marker.block (marker.text.getD "")) with
      blocks := walk.blocks.enter marker }

/-- Leaves a block and records its end. -/
def close (walk : Walk) (kind : BlockKind) (id : Nat) (footer : Option String) : Walk :=
  { walk.emit (.closed kind id footer) with blocks := (walk.blocks.leave id).2 }

/-- Closes the blocks inside `outer`, whose own ends lie later. -/
def closeInside (outer : Nat) : (bound : Nat) → Walk → Walk
  | 0, walk => walk
  | bound + 1, walk =>
    match walk.blocks.innermost? with
    | none => walk
    | some top =>
      if top.id = outer then walk
      else
        let (cancelled, blocks) := walk.blocks.cancelEnd top.id
        closeInside outer bound
          ({ walk with blocks }.close top.kind top.id (cancelled.bind (·.text)))

/-- Closes the blocks whose ends are due, innermost first. A block whose end is due takes the blocks inside it
    with it. Every step shortens the chain of open blocks, so its length bounds them. -/
def closeDue (horizon : Horizon) : (bound : Nat) → Walk → Walk
  | 0, walk => walk
  | bound + 1, walk =>
    match walk.blocks.takeEnd? horizon with
    | some (marker, blocks) =>
      closeDue horizon bound ({ walk with blocks }.close marker.kind marker.id marker.text)
    | none =>
      match walk.blocks.blockedEnd? horizon with
      | none => walk
      | some outer => closeDue horizon bound (closeInside outer walk.blocks.chain.length walk)

/-- Lets the begins that are due take effect. -/
def openDue (horizon : Horizon) (deferred : Bool) (walk : Walk) : Walk :=
  let (markers, blocks) := walk.blocks.takeBegins horizon deferred
  markers.foldl enter { walk with blocks }

/-- Lets the markers that are due at a cursor take effect: plain begins, ends, deferred begins. -/
def reconcile (walk : Walk) (cursor : Nat) : Walk :=
  let walk := walk.openDue (.upTo cursor) false
  let walk := walk.closeDue (.upTo cursor) walk.blocks.chain.length
  walk.openDue (.upTo cursor) true

/-!
### Statements

Control flow has no text of its own in most cases; it queues markers. The text that is left, and whether a
semicolon follows it, is what an instruction adds to the source.
-/

/-- Text of a statement and whether a semicolon follows it. -/
structure Wording where
  text : String := ""
  terminated : Bool := false
  comment : Option String := none
deriving Repr, Inhabited, DecidableEq

/-- Queues the begin and the end of a block that starts after an instruction. -/
def queueBlock (walk : Walk) (kind : BlockKind) (i : Instruction) (stop : Nat)
    (header : Option String) : Walk :=
  { walk with blocks := (walk.blocks.queueBlock kind i.endPosition i.position stop header).2 }

/-- Queues the begin of a block that starts after an instruction. -/
def queueBegin (walk : Walk) (kind : BlockKind) (i : Instruction) (stop : Nat)
    (header : Option String) : Walk :=
  { walk with
    blocks := (walk.blocks.queueBegin kind i.endPosition i.position stop header false).2 }

/-- Queues the end of a block after an instruction. -/
def queueEnd (walk : Walk) (kind : BlockKind) (id : Nat) (i : Instruction)
    (footer : Option String) : Walk :=
  { walk with blocks := walk.blocks.queueEnd kind id i.endPosition footer }

/-- A jump that is written as a `goto`, after the text `lead`. -/
def jumpTo (walk : Walk) (i : Instruction) (lead : String) (target : Nat) : Wording × Walk :=
  let (name, labels) := walk.labels.target target i.position
  ({ text := s!"{lead}goto {name}", terminated := true }, { walk with labels })

/-- A conditional jump: the `until` of a loop, the guard of a `while` loop, or an `if`. A backward jump whose
    loop is closed already is a `goto`. -/
def branch (walk : Walk) (body : Body) (i : Instruction) (target : Nat) (condition : String) :
    Wording × Walk :=
  if i.isDoUntil then
    match walk.blocks.findByCreator? .loop i.position with
    | some id => ({}, walk.queueEnd .loop id i (some s!"until({condition});"))
    | none => walk.jumpTo i s!"if(!({condition})) " target
  else if body.isWhileGuard i then
    ({}, walk.queueBlock .loop i target (some s!"while({condition})"))
  else
    ({}, walk.queueBlock .ifBlock i target (some s!"if({condition})"))

/-- The jump closes the innermost loop. -/
def closesLoop (walk : Walk) (i : Instruction) (target : Nat) : Bool :=
  (walk.blocks.innermostWhere? (· == .loop)).any fun loop =>
    loop.stop == i.endPosition && loop.creator == target

/-- The jump continues the innermost loop. -/
def continues (walk : Walk) (i : Instruction) (target : Nat) : Bool :=
  (walk.blocks.innermostWhere? (·.isBreakable)).any fun block =>
    match block.kind with
    | .forEach => isForEachContinue target block.stop
    | .loop => isLoopContinue i.position target block.creator block.stop
    | _ => false

/-- The jump leads over the `else` of the innermost `if`. A jump that could be a `continue` is one if it
    stands alone in its `if`. -/
def entersElse (walk : Walk) (i : Instruction) (target : Nat) : Bool :=
  walk.blocks.innermost?.any fun top =>
    top.kind == .ifBlock && !(walk.continues i target && top.start == i.position) &&
    isElse i.endPosition target ((walk.blocks.pendingEnd? top.id).map (·.position))

/-- An unconditional jump: the end of a loop, `break`, `else`, `continue`, or a `goto`. -/
def jump (walk : Walk) (i : Instruction) (target : Nat) : Wording × Walk :=
  if walk.closesLoop i target then
    ({}, walk)
  else if isBreak target ((walk.blocks.innermostWhere? (·.isBreakable)).map (·.stop)) then
    ({}, walk.queueBegin .switchBreak i i.endPosition (some "break;"))
  else if walk.entersElse i target then
    ({}, walk.queueBlock .elseBlock i target none)
  else if walk.continues i target then
    ({ text := "continue", terminated := true }, walk)
  else
    walk.jumpTo i "" target

/-- A `switch`, which reaches no further than the block around it. -/
def switch (walk : Walk) (body : Body) (index : Nat) (i : Instruction) (value : String) : Walk :=
  let limit := (walk.blocks.innermost?.map (·.stop)).getD body.codeEnd
  walk.queueBlock .switch i (body.switchEnd index limit) (some s!"switch({value})")

/-- The end of a `foreach`: an iterator pop right after an iterator advance. -/
def iteratorPop (walk : Walk) (i : Instruction) : Walk :=
  if walk.previous = some .iteratorNext then
    match walk.blocks.innermostWhere? (· == .forEach) with
    | some block => walk.queueEnd .forEach block.id i none
    | none => walk
  else walk

/-- What a statement adds to the source, and what it queues. -/
def perform (walk : Walk) (body : Body) (index : Nat) (i : Instruction) :
    Statement → Wording × Walk
  | .plain text terminated => ({ text, terminated }, walk)
  | .remark text => ({ comment := some text }, walk)
  | .branch target condition => walk.branch body i target condition
  | .jump target => walk.jump i target
  | .editorOnly target => ({}, walk.queueBlock .ifBlock i target (some "filtereditoronly"))
  | .switch value => ({}, walk.switch body index i value)
  | .caseArm target value =>
    ({ text := s!"case {value}:" }, walk.queueBlock .caseArm i target none)
  | .defaultArm =>
    let stop := ((walk.blocks.innermostWhere? (· == .switch)).map (·.stop)).getD 0
    ({ text := "default:" }, walk.queueBlock .defaultArm i stop none)
  | .forEach header stop => ({}, walk.queueBegin .forEach i stop (some header))
  | .iteratorPop => ({}, walk.iteratorPop i)
  | .silent => ({}, walk)

/-- Writes an instruction, or the diagnostic of why it cannot be written. -/
def write (walk : Walk) (setting : Setting) (index : Nat) (i : Instruction) : Walk :=
  let insideSwitch := walk.blocks.isInside .switch
  match (i.statement setting.words setting.scope insideSwitch).run none with
  | .ok statement remark =>
    let (wording, walk) := walk.perform setting.body index i statement
    walk.emit (.statement {
      position := i.position
      text := wording.text
      terminated := wording.terminated
      preComment := wording.comment
      postComment := remark })
  | .error error remark => walk.emit (.diagnostic i.position error remark)

/-- Writes the label of a position, if it has one. -/
def writeLabel (walk : Walk) (position : Nat) : Walk :=
  let (label, labels) := walk.labels.take position
  match label with
  | some label => { walk with labels }.emit (.label label.name label.position)
  | none => walk

/-- One step of the walk: the label of the instruction, the instruction itself, and the markers that are due
    after it. -/
def step (setting : Setting) (walk : Walk) (i : Instruction) (index : Nat) : Walk :=
  let walk := walk.writeLabel i.position
  let walk :=
    if i.opcode.isHidden then walk
    else
      let walk :=
        if setting.suppressImplicitReturn && setting.body.isImplicitReturn index then walk
        else walk.write setting index i
      { walk with previous := some i.opcode }
  walk.reconcile i.endPosition

/-!
### The whole walk

State labels, labels for the targets that an earlier walk missed, and the begins of `do` loops are known from the
start. After the last instruction, labels at or past the end of the code are written, and what is still open is
closed.
-/

/-- Registers the labels of the label tables. -/
def registerStates (setting : Setting) (walk : Walk) : Walk :=
  let entries := setting.body.instructions.toList.flatMap fun i =>
    match i.token with
    | .labelTable entries => entries
    | _ => []
  { walk with
    labels := entries.foldl (fun labels entry => labels.register
      ⟨setting.words.symbols.nameText entry.name, entry.position.toNat, .state⟩) walk.labels }

/-- Registers made-up labels at the given positions. -/
def registerSeeds (seeds : List Nat) (walk : Walk) : Walk :=
  { walk with
    labels := seeds.foldl (fun labels position => labels.register
      ⟨gotoLabelName position, position, .goto⟩) walk.labels }

/-- Queues the begins of `do` loops, each created by the conditional jump that ends it. -/
def queueDoLoops (setting : Setting) (walk : Walk) : Walk :=
  let untils := setting.body.instructions.toList.filter (·.isDoUntil)
  { walk with
    blocks := untils.foldl (fun blocks i =>
      match i.jumpTarget? with
      | some target => (blocks.queueBegin .loop target i.position i.endPosition (some "do") true).2
      | none => blocks) walk.blocks }

/-- The state before the first instruction. -/
def prepare (setting : Setting) (seeds : List Nat) : Walk :=
  ((registerStates setting {}).registerSeeds seeds).queueDoLoops setting |>.reconcile 0

/-- Writes the labels at or past the end of the code; other labels that were not written are inside an
    instruction and are dropped. -/
def writeLastLabels (setting : Setting) (walk : Walk) : Walk :=
  let (labels, table) := walk.labels.drain
  (labels.filter (setting.body.codeEnd ≤ ·.position)).foldl
    (fun walk label => walk.emit (.label label.name label.position)) { walk with labels := table }

/-- Closes every block that is still open, with its footer if its end is queued. -/
def closeAll : (bound : Nat) → Walk → Walk
  | 0, walk => walk
  | bound + 1, walk =>
    match walk.blocks.takeEnd? .unbounded with
    | some (marker, blocks) =>
      closeAll bound ({ walk with blocks }.close marker.kind marker.id marker.text)
    | none =>
      match walk.blocks.innermost? with
      | none => walk
      | some top => closeAll bound (walk.close top.kind top.id none)

/-- Ends the walk. -/
def finish (setting : Setting) (walk : Walk) : Walk :=
  let walk := walk.writeLastLabels setting
  let walk := walk.openDue .unbounded false
  let walk := walk.openDue .unbounded true
  let walk := closeAll walk.blocks.chain.length walk
  { walk with blocks := walk.blocks.drain.2 }

end Walk

namespace Setting

/-- The whole walk, with labels at the given positions from the start. -/
def walk (setting : Setting) (seeds : List Nat) : Walk :=
  (setting.body.instructions.toList.zipIdx.foldl
    (fun walk (i, index) => walk.step setting i index) (Walk.prepare setting seeds)).finish setting

/-- The recovered source. When the walk passed the target of a `goto` before it knew of it, a second walk sets
    the labels that the first one missed. -/
def events (setting : Setting) : Array Event :=
  let first := setting.walk []
  if first.labels.missed.isEmpty then first.events
  else (setting.walk first.labels.missed.toList).events

end Setting

end ScriptBytecode
