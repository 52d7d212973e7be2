/-
Module: ScriptBytecode.Geometry
Purpose: Shapes of jumps. Bytecode has no block markers, so loops, `else`, `break` and `continue` are recognised
  from where jumps stand and where they go. Different sources can give the same bytecode (a `goto` to the first
  statement of a loop and a `continue` do), and the rules here settle on one of them.
Main exports: Body.isWhileGuard, Instruction.isDoUntil, isLoopContinue, isForEachContinue, isBreak, isElse,
  Body.switchEnd, Body.isImplicitReturn
-/
import ScriptBytecode.Body

namespace ScriptBytecode

/-- Logical size of an unconditional jump. -/
def jumpSize : Nat := 3

/-- Logical size of the instruction that advances an iterator at the end of a `foreach`. -/
def iteratorNextSize : Nat := 1

/-- A forward conditional jump whose block ends with a jump back to it. -/
def Body.isWhileGuard (body : Body) (guard : Instruction) : Bool :=
  match guard.token with
  | .jumpIfNot target _ =>
    guard.endPosition < target.toNat &&
    (body.endingAt? target.toNat).any fun closing =>
      closing.opcode == .jump && closing.jumpTarget? == some guard.position
  | _ => false

/-- A backward conditional jump: the `until` of a `do` loop that starts at its target. -/
def Instruction.isDoUntil (i : Instruction) : Bool :=
  match i.token with
  | .jumpIfNot target _ => target.toNat ≤ i.position
  | _ => false

/-- A backward jump to the guard of a `while` loop that is not the loop's own closing jump. -/
def isLoopContinue (jumpPosition target loopStart loopEnd : Nat) : Bool :=
  target == loopStart && jumpPosition + jumpSize != loopEnd

/-- A jump to the iterator advance just before a `foreach` ends. -/
def isForEachContinue (target forEachEnd : Nat) : Bool :=
  target + iteratorNextSize == forEachEnd

/-- A jump to the end of the innermost block that `break` leaves. -/
def isBreak (target : Nat) (breakableEnd : Option Nat) : Bool :=
  breakableEnd == some target

/-- A forward jump that ends exactly where the innermost `if` closes. -/
def isElse (jumpEnd target : Nat) (ifEnd : Option Nat) : Bool :=
  ifEnd == some jumpEnd && jumpEnd < target

/-- Where the chain of cases of a `switch` leads. -/
inductive CaseChain where
  /-- The chain leaves the cases at a position. -/
  | leavesAt (position : Nat)
  /-- The chain reaches `default`, at an index. -/
  | reachesDefault (index : Nat)
deriving Repr, Inhabited, DecidableEq

namespace Body

/-- Follows the cases from `position` on, over at most `bound` of them. Each case leads to a later
    instruction, so as many steps as there are instructions are enough. A chain that turns back, or that
    ends in hidden instructions, is cut off at `limit`. -/
def followCases (body : Body) (limit : Nat) : (bound : Nat) → (position : Nat) → CaseChain
  | 0, _ => .leavesAt limit
  | bound + 1, position =>
    match body.indexOf? position with
    | none => .leavesAt position
    | some start =>
      let index := body.skipHidden start
      match body.instructions[index]? with
      | none => .leavesAt limit
      | some i =>
        match i.token with
        | .caseLabel target _ =>
          if target = defaultCaseTarget then .reachesDefault index
          else if i.position < target.toNat then body.followCases limit bound target.toNat
          else .leavesAt limit
        | _ => .leavesAt i.position

/-- End of the first `return` before `limit` that no forward conditional jump seen so far leads across. -/
def firstPlainReturn (limit : Nat) : (openUntil : Nat) → List Instruction → Option Nat
  | _, [] => none
  | openUntil, i :: rest =>
    if i.position < limit then
      match i.token with
      | .jumpIfNot target _ =>
        firstPlainReturn limit (if i.position < target.toNat then max openUntil target.toNat
          else openUntil) rest
      | .returnValue _ | .returnNothing _ =>
        if openUntil ≤ i.position then some i.endPosition else firstPlainReturn limit openUntil rest
      | _ => firstPlainReturn limit openUntil rest
    else
      none

/-- The nearest target past `position` of a jump among the instructions from `first` to before `last`. -/
def nearestBreak (body : Body) (first last position : Nat) : Option Nat :=
  ((body.instructions.extract first last).toList.filter (·.opcode == .jump)).filterMap
    (·.jumpTarget?) |>.filter (position < ·) |>.min?

/-- Logical end of the `switch` at an index, never past `limit`, the end of the block around it. Without a
    `default` the chain of cases leads to the end. With one, the end is the nearest `break` target past
    `default`; when every case returns instead, it is the end of the first plain `return` after `default`,
    and failing that `limit`. -/
def switchEnd (body : Body) (switchIndex limit : Nat) : Nat :=
  match body.instructions[switchIndex]? with
  | none => limit
  | some switch =>
    match body.followCases limit (body.instructions.size + 1) switch.endPosition with
    | .leavesAt position => min position limit
    | .reachesDefault index =>
      let position := (body.instructions[index]?.map (·.position)).getD 0
      let found :=
        (body.nearestBreak (switchIndex + 1) index position).or
          (firstPlainReturn limit 0 (body.instructions.toList.drop (index + 1)))
      min (found.getD limit) limit

/-- An instruction after which nothing is written. -/
def isTail (i : Instruction) : Bool :=
  i.opcode.isHidden || i.opcode == .endOfScript || i.opcode == .nothing

/-- The `return;` that the compiler adds at the end of a body. -/
def isImplicitReturn (body : Body) (index : Nat) : Bool :=
  body.instructions[index]?.any fun i =>
    (match i.token with
      | .returnValue value => value.opcode == .nothing
      | .returnNothing _ => true
      | _ => false) &&
    (body.instructions.toList.drop (index + 1)).all isTail

end Body

end ScriptBytecode
