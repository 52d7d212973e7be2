/-
Module: ScriptBytecode.Block
Purpose: Blocks of the recovered source. Instructions that open or close blocks queue markers, each with the
  position at which it takes effect; the walk over a body asks for the markers that are due and keeps the chain
  of blocks that are open.
Main exports: BlockKind, Marker, OpenBlock, Horizon, Blocks
-/

namespace ScriptBytecode

/-- Kind of a block. -/
inductive BlockKind where
  | ifBlock
  | elseBlock
  | forEach
  | switch
  | caseArm
  | defaultArm
  /-- A `break;` statement; it never opens a block. -/
  | switchBreak
  /-- `while` and `do ... until` loops. -/
  | loop
deriving Repr, Inhabited, DecidableEq

namespace BlockKind

/-- Blocks that a `break` can leave. -/
def isBreakable : BlockKind → Bool
  | .switch | .loop | .forEach => true
  | _ => false

/-- Blocks that are written without braces. -/
def isLabelLike : BlockKind → Bool
  | .caseArm | .defaultArm => true
  | _ => false

end BlockKind

/-- A marker begins a block or ends it. -/
inductive MarkerSide where
  | opening
  | closing
deriving Repr, Inhabited, DecidableEq

/-- A queued marker. -/
structure Marker where
  kind : BlockKind
  side : MarkerSide
  /-- Position at which the marker takes effect. -/
  position : Nat
  /-- Position of the instruction that queued it. -/
  creator : Nat
  /-- Number of the block, shared by its two markers. -/
  id : Nat
  /-- Where the block ends, as known when the marker was queued. -/
  blockEnd : Nat
  /-- Header or footer: `if(a)`, `until(b);`, `break;`. -/
  text : Option String
  /-- The block begins after the ends at the same position. -/
  deferred : Bool
deriving Repr, Inhabited, DecidableEq

/-- A block that is open. -/
structure OpenBlock where
  kind : BlockKind
  id : Nat
  creator : Nat
  start : Nat
  stop : Nat
deriving Repr, Inhabited, DecidableEq

/-- The block that a marker begins. -/
def Marker.block (marker : Marker) : OpenBlock where
  kind := marker.kind
  id := marker.id
  creator := marker.creator
  start := marker.position
  stop := marker.blockEnd

/-- How far the walk has come: to a cursor, or past everything. -/
inductive Horizon where
  | upTo (cursor : Nat)
  | unbounded
deriving Repr, Inhabited, DecidableEq

/-- What stands at a position is due. -/
def Horizon.reaches : Horizon → Nat → Bool
  | .upTo cursor, position => position ≤ cursor
  | .unbounded, _ => true

/-- Queued markers, in the order in which they were queued, and open blocks, innermost first. -/
structure Blocks where
  pending : List Marker := []
  chain : List OpenBlock := []
  nextId : Nat := 0
deriving Repr, Inhabited, DecidableEq

namespace Blocks

/-- Queues the begin of a new block and gives its number. -/
def queueBegin (blocks : Blocks) (kind : BlockKind) (position creator blockEnd : Nat)
    (text : Option String) (deferred : Bool) : Nat × Blocks :=
  let marker : Marker :=
    { kind, side := .opening, position, creator, id := blocks.nextId, blockEnd, text, deferred }
  (blocks.nextId,
    { blocks with pending := blocks.pending ++ [marker], nextId := blocks.nextId + 1 })

/-- Creator of a block that is open or queued. -/
def creator? (blocks : Blocks) (id : Nat) : Option Nat :=
  ((blocks.chain.reverse.find? (·.id == id)).map (·.creator)).or
    ((blocks.pending.find? (·.id == id)).map (·.creator))

/-- Queues the end of a block. -/
def queueEnd (blocks : Blocks) (kind : BlockKind) (id position : Nat) (text : Option String) :
    Blocks :=
  let marker : Marker :=
    { kind, side := .closing, position, creator := (blocks.creator? id).getD position, id,
      blockEnd := position, text, deferred := false }
  { blocks with pending := blocks.pending ++ [marker] }

/-- Queues both ends of a new block. -/
def queueBlock (blocks : Blocks) (kind : BlockKind) (position creator stop : Nat)
    (text : Option String) : Nat × Blocks :=
  let (id, blocks) := blocks.queueBegin kind position creator stop text false
  (id, blocks.queueEnd kind id stop none)

/-- The innermost open block. -/
def innermost? (blocks : Blocks) : Option OpenBlock := blocks.chain.head?

/-- A block of the kind is open. -/
def isInside (blocks : Blocks) (kind : BlockKind) : Bool := blocks.chain.any (·.kind == kind)

/-- The innermost open block of a kind that satisfies a condition. -/
def innermostWhere? (blocks : Blocks) (condition : BlockKind → Bool) : Option OpenBlock :=
  blocks.chain.find? (condition ·.kind)

/-- The marker ends a block. -/
def isEndOf (id : Nat) (marker : Marker) : Bool := marker.id == id && marker.side == .closing

/-- Queued end of a block. -/
def pendingEnd? (blocks : Blocks) (id : Nat) : Option Marker := blocks.pending.find? (isEndOf id)

/-- Number of an open or queued block of a kind, by the position of its creator. -/
def findByCreator? (blocks : Blocks) (kind : BlockKind) (creator : Nat) : Option Nat :=
  ((blocks.chain.reverse.find? fun b => b.kind == kind && b.creator == creator).map (·.id)).or
    ((blocks.pending.find? fun m =>
      m.kind == kind && m.creator == creator && m.side == .opening).map (·.id))

/-- Takes back the queued end of a block. -/
def cancelEnd (blocks : Blocks) (id : Nat) : Option Marker × Blocks :=
  (blocks.pendingEnd? id, { blocks with pending := blocks.pending.eraseP (isEndOf id) })

/-- Deferred blocks begin by position, and at one position the one that ends last begins first. -/
def beginsNoLater (a b : Marker) : Bool :=
  a.position < b.position || (a.position == b.position && b.blockEnd ≤ a.blockEnd)

/-- Takes the begins that are due: plain ones in the order in which they were queued, deferred ones
    outermost first. -/
def takeBegins (blocks : Blocks) (horizon : Horizon) (deferred : Bool) : List Marker × Blocks :=
  let (ready, waiting) := blocks.pending.partition fun m =>
    m.side == .opening && m.deferred == deferred && horizon.reaches m.position
  (if deferred then ready.mergeSort beginsNoLater else ready, { blocks with pending := waiting })

/-- Takes the end of the innermost open block, if it is due. -/
def takeEnd? (blocks : Blocks) (horizon : Horizon) : Option (Marker × Blocks) := do
  let top ← blocks.innermost?
  let isReady := fun m => isEndOf top.id m && horizon.reaches m.position
  let marker ← blocks.pending.find? isReady
  return (marker, { blocks with pending := blocks.pending.eraseP isReady })

/-- The outermost open block whose end is due while blocks inside it are still open. -/
def blockedEnd? (blocks : Blocks) (horizon : Horizon) : Option Nat :=
  (blocks.chain.tail.reverse.map (·.id)).find? fun id =>
    (blocks.pendingEnd? id).any (horizon.reaches ·.position)

/-- Opens the block that a marker begins. -/
def enter (blocks : Blocks) (marker : Marker) : Blocks :=
  { blocks with chain := marker.block :: blocks.chain }

/-- Leaves a block and everything that is open inside it. -/
def leave (blocks : Blocks) (id : Nat) : Option OpenBlock × Blocks :=
  match blocks.chain.dropWhile (·.id != id) with
  | [] => (none, blocks)
  | entry :: outer => (some entry, { blocks with chain := outer })

/-- Takes every queued marker, begins first. -/
def drain (blocks : Blocks) : List Marker × Blocks :=
  let (begins, ends) := blocks.pending.partition (·.side == .opening)
  (begins ++ ends, { blocks with pending := [] })

/-- Some marker is queued. -/
def hasPending (blocks : Blocks) : Bool := !blocks.pending.isEmpty

end Blocks

end ScriptBytecode
