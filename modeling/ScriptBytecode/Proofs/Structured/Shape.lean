/-
Module: ScriptBytecode.Proofs.Structured.Shape
Purpose: The shape of structured code. `Laid` says of a run of instructions which lines of source it stands for,
  statement by statement, with the jumps of each statement where a reader of bytecode looks for them. What the geometry
  of jumps asks for follows from it: instructions stand end to end, jumps leave a run only by way of the loop or
  `switch` around it, `do` loops begin and end inside it, and no run starts with a label of a `switch`.
Main exports: Loop, Arm, Chained, Laid, Laid.consecutive, Laid.stays, Unlabelled, Laid.unlabelled
-/
import ScriptBytecode.Proofs.Body.Shapes
import ScriptBytecode.Proofs.Decoding.Movement
import ScriptBytecode.Proofs.Structured.Flow

namespace ScriptBytecode

/-!
### Instructions of structured code
-/

/-- The instruction stands at a position and is not empty. -/
structure Instruction.StandsAt (i : Instruction) (position : Nat) : Prop where
  position : i.position = position
  size : 0 < i.size

theorem Instruction.StandsAt.lt {i : Instruction} {position : Nat} (h : i.StandsAt position) :
    position < i.endPosition := by
  rw [← h.position]
  exact Nat.lt_add_of_pos_right h.size

section

variable (words : Vocabulary) (scope : Scope)

/-- A statement without control flow. -/
structure IsStatement (i : Instruction) (position : Nat) (line : Line) : Prop
    extends i.StandsAt position where
  shown : i.opcode.isHidden = false
  text : line.text ≠ ""
  statement : (i.statement words scope false).run none =
    .ok (.plain line.text line.terminated) line.postComment

/-- A conditional jump. -/
structure IsBranch (i : Instruction) (position target : Nat) (condition : String) : Prop
    extends i.StandsAt position where
  opcode : i.opcode = .jumpIfNot
  token : ∃ t c remark, i.token = .jumpIfNot t c ∧ t.toNat = target ∧
    (c.expression words scope).run none = .ok condition remark

/-- The start of a `foreach`. -/
structure IsIterator (i : Instruction) (position stop : Nat) (text : String) : Prop
    extends i.StandsAt position where
  opcode : i.opcode = .iterator
  token : ∃ c t remark, i.token = .iterator c t ∧ t.toNat = stop ∧
    (c.expression words scope).run none = .ok text remark

/-- The head of a `switch`. -/
structure IsSwitch (i : Instruction) (position : Nat) (value : String) : Prop
    extends i.StandsAt position where
  opcode : i.opcode = .switch
  token : ∃ property width v remark, i.token = .switch property width v ∧
    (v.expression words scope).run none = .ok value remark

/-- The label of a `case`. -/
structure IsCase (i : Instruction) (position target : Nat) (line : Line) : Prop
    extends i.StandsAt position where
  opcode : i.opcode = .caseLabel
  token : ∃ t v text remark, i.token = .caseLabel t (some v) ∧ t ≠ defaultCaseTarget ∧ t.toNat = target ∧
    (v.expression words scope).run none = .ok text remark ∧ line = labelLine s!"case {text}:" remark

end

/-- The label of a `default`. -/
structure IsDefault (i : Instruction) (position : Nat) (line : Line) : Prop extends i.StandsAt position where
  opcode : i.opcode = .caseLabel
  token : i.token = .caseLabel defaultCaseTarget none
  line : line = defaultLine

/-- An unconditional jump. -/
structure IsJump (i : Instruction) (position target : Nat) : Prop extends i.StandsAt position where
  opcode : i.opcode = .jump
  width : i.size = jumpSize
  token : ∃ t, i.token = .jump t ∧ t.toNat = target

/-- An instruction without operands. -/
structure IsBare (i : Instruction) (position : Nat) (opcode : Opcode) : Prop
    extends i.StandsAt position where
  opcode : i.opcode = opcode
  token : i.token = .noOperands

/-- A loop or `switch` around a statement: where its `break` leads, and its `continue` if it is a `while` loop. -/
structure Loop where
  stop : Nat
  guard : Option Nat

/-- An arm of a `switch`: its label and what stands between that and the jump that leaves the arm. -/
structure Arm where
  label : Instruction
  line : Line
  body : List Instruction
  rows : List Row
  leave : Instruction

/-- The instructions of an arm. -/
def Arm.code (arm : Arm) : List Instruction := arm.label :: (arm.body ++ [arm.leave])

/-- The lines of an arm. -/
def Arm.lines (options : Options) (depth : Nat) (arm : Arm) : List Row :=
  armRows options depth arm.line arm.rows

/-- The arms of a `switch` one after the other, each of which leaves to `exit`. A `case` leads to what follows its arm;
    a `default` is followed by no other arm. -/
inductive Chained (words : Vocabulary) (scope : Scope) (exit : Nat) : (start : Nat) → List Arm → Prop where
  | nil : Chained words scope exit exit []
  | fallback {start : Nat} {arm : Arm} (label : IsDefault arm.label start arm.line)
      (leave : IsJump arm.leave arm.leave.position exit) (last : arm.leave.endPosition = exit) :
      Chained words scope exit start [arm]
  | cons {start : Nat} {arm : Arm} {arms : List Arm}
      (label : IsCase words scope arm.label start arm.leave.endPosition arm.line)
      (leave : IsJump arm.leave arm.leave.position exit)
      (rest : Chained words scope exit arm.leave.endPosition arms) :
      Chained words scope exit start (arm :: arms)

/-- There are arms, and the first of them is a `case`. -/
def StartsWithCase (arms : List Arm) : Prop :=
  ∃ first rest, arms = first :: rest ∧ first.label.jumpTarget?.isSome = true

/-- The instructions from `start` to `stop` stand for some lines of source. The first statement of the run is given
    with the run after it. -/
inductive Laid (words : Vocabulary) (scope : Scope) (options : Options) :
    (loop : Option Loop) → (depth start : Nat) → List Instruction → (stop : Nat) → List Row → Prop where
  | nil {loop : Option Loop} {depth start : Nat} :
      Laid words scope options loop depth start [] start []
  | plain {loop : Option Loop} {depth start stop : Nat} {i : Instruction} {line : Line}
      {is : List Instruction} {rows : List Row}
      (statement : IsStatement words scope i start line)
      (rest : Laid words scope options loop depth i.endPosition is stop rows) :
      Laid words scope options loop depth start (i :: is) stop
        (rowsAt depth [line.written options] ++ rows)
  | ifThen {loop : Option Loop} {depth start middle stop : Nat} {guard : Instruction}
      {condition : String} {is js : List Instruction} {inner rows : List Row}
      (branch : IsBranch words scope guard start middle condition)
      (body : Laid words scope options loop (depth + 1) guard.endPosition is middle inner)
      (rest : Laid words scope options loop depth middle js stop rows) :
      Laid words scope options loop depth start (guard :: (is ++ js)) stop
        (blockRows options depth s!"if({condition})" inner none ++ rows)
  | ifElse {loop : Option Loop} {depth start middle after stop : Nat} {guard bypass : Instruction}
      {condition : String} {is js ks : List Instruction} {inner other rows : List Row}
      (branch : IsBranch words scope guard start bypass.endPosition condition)
      (yes : Laid words scope options loop (depth + 1) guard.endPosition is middle inner)
      (yes_ne : guard.endPosition < middle)
      (jump : IsJump bypass middle after)
      (no : Laid words scope options loop (depth + 1) bypass.endPosition js after other)
      (no_ne : bypass.endPosition < after)
      (rest : Laid words scope options loop depth after ks stop rows) :
      Laid words scope options loop depth start (guard :: (is ++ bypass :: (js ++ ks))) stop
        (blockRows options depth s!"if({condition})"
          (inner ++ rowsAt depth options.elseBraces ++ other) none ++ rows)
  | whileLoop {loop : Option Loop} {depth start middle stop : Nat} {guard closing : Instruction}
      {condition : String} {is js : List Instruction} {inner rows : List Row}
      (branch : IsBranch words scope guard start closing.endPosition condition)
      (body : Laid words scope options (some ⟨closing.endPosition, some start⟩) (depth + 1)
        guard.endPosition is middle inner)
      (jump : IsJump closing middle start)
      (rest : Laid words scope options loop depth closing.endPosition js stop rows) :
      Laid words scope options loop depth start (guard :: (is ++ closing :: js)) stop
        (blockRows options depth s!"while({condition})" inner none ++ rows)
  | doUntil {loop : Option Loop} {depth start middle stop : Nat} {test : Instruction}
      {condition : String} {is js : List Instruction} {inner rows : List Row}
      (body : Laid words scope options (some ⟨test.endPosition, none⟩) (depth + 1) start is middle
        inner)
      (branch : IsBranch words scope test middle start condition)
      (rest : Laid words scope options loop depth test.endPosition js stop rows) :
      Laid words scope options loop depth start (is ++ test :: js) stop
        (blockRows options depth "do" inner (some s!"until({condition});") ++ rows)
  | forEach {loop : Option Loop} {depth start middle stop : Nat} {head next pop : Instruction}
      {text : String} {is js : List Instruction} {inner rows : List Row}
      (iterator : IsIterator words scope head start pop.position text)
      (body : Laid words scope options (some ⟨pop.position, none⟩) (depth + 1) head.endPosition is
        middle inner)
      (advance : IsBare next middle .iteratorNext)
      (leave : IsBare pop next.endPosition .iteratorPop)
      (rest : Laid words scope options loop depth pop.endPosition js stop rows) :
      Laid words scope options loop depth start (head :: (is ++ next :: pop :: js)) stop
        (blockRows options depth s!"foreach {text}" inner none ++ rows)
  | switch {loop : Option Loop} {depth start exit stop : Nat} {head : Instruction} {value : String}
      {arms : List Arm} {js : List Instruction} {rows : List Row}
      (header : IsSwitch words scope head start value) (cased : StartsWithCase arms)
      (chained : Chained words scope exit head.endPosition arms)
      (bodies : ∀ arm ∈ arms, Laid words scope options (some ⟨exit, none⟩) (depth + 2)
        arm.label.endPosition arm.body arm.leave.position arm.rows)
      (rest : Laid words scope options loop depth exit js stop rows) :
      Laid words scope options loop depth start (head :: (arms.flatMap Arm.code ++ js)) stop
        (blockRows options depth s!"switch({value})" (arms.flatMap (Arm.lines options (depth + 1))) none ++ rows)
  | breakLoop {loop : Loop} {depth start stop : Nat} {i : Instruction} {is : List Instruction}
      {rows : List Row}
      (jump : IsJump i start loop.stop)
      (rest : Laid words scope options (some loop) depth i.endPosition is stop rows) :
      Laid words scope options (some loop) depth start (i :: is) stop
        (rowsAt depth ["break;"] ++ rows)
  | continueLoop {exit guard depth start stop : Nat} {i : Instruction} {is : List Instruction}
      {rows : List Row}
      (jump : IsJump i start guard)
      (rest : Laid words scope options (some ⟨exit, some guard⟩) depth i.endPosition is stop rows) :
      Laid words scope options (some ⟨exit, some guard⟩) depth start (i :: is) stop
        (rowsAt depth ["continue;"] ++ rows)

/-!
### What follows from the shape
-/

section

variable {words : Vocabulary} {scope : Scope} {i : Instruction} {position target : Nat}

theorem IsBranch.jumpTarget {condition : String} (h : IsBranch words scope i position target condition) :
    i.jumpTarget? = some target := by
  obtain ⟨t, c, remark, htoken, rfl, -⟩ := h.token
  simp [Instruction.jumpTarget?, htoken, Token.jumpTarget?]

theorem IsBranch.isDoUntil {condition : String} (h : IsBranch words scope i position target condition) :
    i.isDoUntil = decide (target ≤ position) := by
  obtain ⟨t, c, remark, htoken, rfl, -⟩ := h.token
  simp [Instruction.isDoUntil, htoken, h.position]

theorem IsBranch.isDoUntil_of_lt {condition : String}
    (h : IsBranch words scope i position target condition) (hlt : position < target) :
    i.isDoUntil = false := by
  rw [h.isDoUntil, decide_eq_false_iff_not, Nat.not_le]
  exact hlt

theorem IsJump.jumpTarget (h : IsJump i position target) : i.jumpTarget? = some target := by
  obtain ⟨t, htoken, rfl⟩ := h.token
  simp [Instruction.jumpTarget?, htoken, Token.jumpTarget?]

theorem IsJump.isDoUntil (h : IsJump i position target) : i.isDoUntil = false := by
  obtain ⟨t, htoken, -⟩ := h.token
  exact Instruction.isDoUntil_of_jump htoken

theorem IsIterator.jumpTarget {text : String} (h : IsIterator words scope i position target text) :
    i.jumpTarget? = some target := by
  obtain ⟨c, t, remark, htoken, rfl, -⟩ := h.token
  simp [Instruction.jumpTarget?, htoken, Token.jumpTarget?]

theorem IsIterator.isDoUntil {text : String} (h : IsIterator words scope i position target text) :
    i.isDoUntil = false := by
  obtain ⟨c, t, remark, htoken, -⟩ := h.token
  exact Instruction.isDoUntil_of_condTarget? (by rw [htoken]; rfl)

theorem IsSwitch.jumpTarget {value : String} (h : IsSwitch words scope i position value) :
    i.jumpTarget? = none := by
  obtain ⟨property, width, v, remark, htoken, -⟩ := h.token
  simp [Instruction.jumpTarget?, htoken, Token.jumpTarget?]

theorem IsCase.jumpTarget {line : Line} (h : IsCase words scope i position target line) :
    i.jumpTarget? = some target := by
  obtain ⟨t, v, text, remark, htoken, hcase, rfl, -⟩ := h.token
  simp [Instruction.jumpTarget?, htoken, Token.jumpTarget?, hcase]

theorem IsDefault.jumpTarget {line : Line} (h : IsDefault i position line) : i.jumpTarget? = none := by
  simp [Instruction.jumpTarget?, h.token, Token.jumpTarget?]

theorem IsBare.jumpTarget {opcode : Opcode} (h : IsBare i position opcode) : i.jumpTarget? = none := by
  simp [Instruction.jumpTarget?, h.token, Token.jumpTarget?]

/-- Jumps and iterators are no statements of their own. -/
theorem IsStatement.jumpTarget {line : Line} (h : IsStatement words scope i position line) :
    i.jumpTarget? = none := by
  have hstatement := h.statement
  unfold Instruction.statement at hstatement
  unfold Instruction.jumpTarget?
  generalize i.token = token at hstatement ⊢
  cases token
  case jump | filterEditorOnly | caseLabel => cases hstatement
  case jumpIfNot | iterator =>
    obtain ⟨_, _, -, hreturn⟩ := bind_eq_ok hstatement
    cases hreturn
  case dynArrayIterator =>
    obtain ⟨_, _, -, hitem⟩ := bind_eq_ok hstatement
    obtain ⟨_, _, -, hrest⟩ := bind_eq_ok hitem
    split at hrest
    · obtain ⟨_, _, -, hreturn⟩ := bind_eq_ok hrest
      cases hreturn
    · cases hrest
  all_goals rfl

theorem no_labelTable_of_jumpTarget (h : i.jumpTarget? = some target) (entries : List LabelEntry) :
    i.token ≠ .labelTable entries := by
  intro htoken
  rw [Instruction.jumpTarget?, htoken] at h
  cases h

theorem IsStatement.no_labelTable {line : Line} (h : IsStatement words scope i position line)
    (entries : List LabelEntry) : i.token ≠ .labelTable entries := by
  intro htoken
  have hstatement := h.statement
  unfold Instruction.statement at hstatement
  rw [htoken] at hstatement
  cases hstatement

theorem IsStatement.no_caseLabel {line : Line} (h : IsStatement words scope i position line)
    (t : UInt16) (v : Option Instruction) : i.token ≠ .caseLabel t v := by
  intro htoken
  have hstatement := h.statement
  unfold Instruction.statement at hstatement
  rw [htoken] at hstatement
  cases hstatement

/-- Only the labels of a `switch` ask whether they are in one. -/
theorem Instruction.statement_inside {statement : Statement} {remark : Option String}
    (h : (i.statement words scope false).run none = .ok statement remark) (insideSwitch : Bool) :
    (i.statement words scope insideSwitch).run none = .ok statement remark := by
  have hsame : ∀ t v, i.token ≠ .caseLabel t v := by
    intro t v htoken
    unfold Instruction.statement at h
    rw [htoken] at h
    cases h
  cases insideSwitch with
  | false => exact h
  | true =>
      unfold Instruction.statement at h ⊢
      generalize htoken : i.token = token at h hsame ⊢
      cases token
      case caseLabel t v => exact absurd rfl (hsame t v)
      all_goals exact h

/-- A conditional jump as a statement. -/
theorem IsBranch.statement {condition : String} (h : IsBranch words scope i position target condition) :
    ∃ remark, (i.statement words scope false).run none = .ok (.branch target condition) remark := by
  obtain ⟨t, c, remark, htoken, rfl, hrun⟩ := h.token
  refine ⟨remark, ?_⟩
  unfold Instruction.statement
  rw [htoken]
  exact (bind_apply ..).trans (by rw [show c.expression words scope none = _ from hrun]; rfl)

theorem IsIterator.statement {text : String} (h : IsIterator words scope i position target text) :
    ∃ remark, (i.statement words scope false).run none =
      .ok (.forEach s!"foreach {text}" target) remark := by
  obtain ⟨c, t, remark, htoken, rfl, hrun⟩ := h.token
  refine ⟨remark, ?_⟩
  unfold Instruction.statement
  rw [htoken]
  exact (bind_apply ..).trans (by rw [show c.expression words scope none = _ from hrun]; rfl)

theorem IsSwitch.statement {value : String} (h : IsSwitch words scope i position value) :
    ∃ remark, (i.statement words scope false).run none = .ok (.switch value) remark := by
  obtain ⟨property, width, v, remark, htoken, hrun⟩ := h.token
  refine ⟨remark, ?_⟩
  unfold Instruction.statement
  rw [htoken]
  exact (bind_apply ..).trans (by rw [show v.expression words scope none = _ from hrun]; rfl)

/-- The label of a `case` in a `switch` as a statement. -/
theorem IsCase.statement {line : Line} (h : IsCase words scope i position target line) :
    ∃ value, line.text = s!"case {value}:" ∧ line.terminated = false ∧
      (i.statement words scope true).run none = .ok (.caseArm target value) line.postComment := by
  obtain ⟨t, v, value, remark, htoken, -, rfl, hrun, rfl⟩ := h.token
  refine ⟨value, rfl, rfl, ?_⟩
  unfold Instruction.statement
  rw [htoken]
  exact (bind_apply ..).trans (by rw [show v.expression words scope none = _ from hrun]; rfl)

theorem IsDefault.statement (h : IsDefault i position defaultLine) :
    (i.statement words scope true).run none = .ok .defaultArm defaultLine.postComment := by
  unfold Instruction.statement
  rw [h.token]
  rfl

theorem IsJump.statement (h : IsJump i position target) :
    (i.statement words scope false).run none = .ok (.jump target) none := by
  obtain ⟨t, htoken, rfl⟩ := h.token
  unfold Instruction.statement
  rw [htoken]
  rfl

theorem Instruction.expression_noOperands (htoken : i.token = .noOperands) :
    i.expression words scope = pure (constantText i.opcode) := by
  cases i
  cases htoken
  rfl

/-- An instruction without operands and without a text of its own is an empty statement. -/
theorem IsBare.statement {opcode : Opcode} (h : IsBare i position opcode)
    (hpop : opcode ≠ .iteratorPop) (htext : constantText opcode = "") :
    (i.statement words scope false).run none = .ok (.plain "" false) none := by
  unfold Instruction.statement
  rw [i.expression_noOperands h.token, h.token]
  simp only [h.opcode, hpop, htext, if_false]
  rfl

theorem IsBare.statement_iteratorPop (h : IsBare i position .iteratorPop) :
    (i.statement words scope false).run none = .ok .iteratorPop none := by
  unfold Instruction.statement
  rw [h.token]
  simp only [h.opcode, if_true]
  rfl

end

/-- How the arm of a `switch` that ends at `exit` lies behind `start`. -/
structure Arm.Fits (arm : Arm) (start exit : Nat) : Prop where
  opcode : arm.label.opcode = .caseLabel
  token : ∃ t v, arm.label.token = .caseLabel t v
  target : ∀ target, arm.label.jumpTarget? = some target → target = arm.leave.endPosition
  leave : IsJump arm.leave arm.leave.position exit
  start_le : start ≤ arm.label.position
  consecutive : Consecutive arm.label.position arm.code arm.leave.endPosition
  stop_le : arm.leave.endPosition ≤ exit

namespace Arm

variable {words : Vocabulary} {scope : Scope} {exit start : Nat} {arm : Arm}

theorem fits_of_default (label : IsDefault arm.label start arm.line)
    (leave : IsJump arm.leave arm.leave.position exit) (hstop : arm.leave.endPosition ≤ exit)
    (hbody : Consecutive arm.label.endPosition arm.body arm.leave.position) : arm.Fits start exit where
  opcode := label.opcode
  token := ⟨_, _, label.token⟩
  target target htarget := by cases label.jumpTarget.symm.trans htarget
  leave := leave
  start_le := Nat.le_of_eq label.position.symm
  consecutive := ⟨rfl, label.size, hbody.append ⟨rfl, leave.size, rfl⟩⟩
  stop_le := hstop

theorem fits_of_case (label : IsCase words scope arm.label start arm.leave.endPosition arm.line)
    (leave : IsJump arm.leave arm.leave.position exit) (hstop : arm.leave.endPosition ≤ exit)
    (hbody : Consecutive arm.label.endPosition arm.body arm.leave.position) : arm.Fits start exit where
  opcode := label.opcode
  token := by
    obtain ⟨t, v, -, -, htoken, -⟩ := label.token
    exact ⟨t, _, htoken⟩
  target target htarget := Option.some.inj (htarget.symm.trans label.jumpTarget)
  leave := leave
  start_le := Nat.le_of_eq label.position.symm
  consecutive := ⟨rfl, label.size, hbody.append ⟨rfl, leave.size, rfl⟩⟩
  stop_le := hstop

theorem Fits.mono {first : Nat} (h : arm.Fits first exit) (hle : start ≤ first) : arm.Fits start exit :=
  { h with start_le := Nat.le_trans hle h.start_le }

end Arm

namespace Chained

variable {words : Vocabulary} {scope : Scope} {exit start : Nat} {arms : List Arm}

/-- The arms of a `switch` stand end to end. -/
theorem consecutive (h : Chained words scope exit start arms)
    (hbodies : ∀ arm ∈ arms, Consecutive arm.label.endPosition arm.body arm.leave.position) :
    Consecutive start (arms.flatMap Arm.code) exit := by
  induction h with
  | nil => rfl
  | @fallback start arm label leave last =>
      have hbody := hbodies arm (List.mem_cons_self ..)
      rw [List.flatMap_singleton]
      exact ⟨label.position, label.size, hbody.append ⟨rfl, leave.size, last⟩⟩
  | @cons start arm arms label leave rest ih =>
      obtain ⟨hbody, hbodies⟩ := List.forall_mem_cons.1 hbodies
      rw [List.flatMap_cons]
      exact Consecutive.append ⟨label.position, label.size, hbody.append ⟨rfl, leave.size, rfl⟩⟩ (ih hbodies)

theorem fits (h : Chained words scope exit start arms)
    (hbodies : ∀ arm ∈ arms, Consecutive arm.label.endPosition arm.body arm.leave.position) :
    ∀ arm ∈ arms, arm.Fits start exit := by
  induction h with
  | nil => simp
  | fallback label leave last =>
      exact List.forall_mem_singleton.2
        (Arm.fits_of_default label leave (Nat.le_of_eq last) (hbodies _ (List.mem_cons_self ..)))
  | @cons start arm arms label leave rest ih =>
      obtain ⟨hbody, hbodies⟩ := List.forall_mem_cons.1 hbodies
      have hfits := Arm.fits_of_case label leave (rest.consecutive hbodies).le hbody
      have hstart : start ≤ arm.leave.endPosition := Nat.le_trans hfits.start_le hfits.consecutive.le
      exact List.forall_mem_cons.2 ⟨hfits, fun other hother => (ih hbodies other hother).mono hstart⟩

end Chained

namespace Laid

variable {words : Vocabulary} {scope : Scope} {options : Options} {loop : Option Loop}
  {depth start stop : Nat} {is : List Instruction} {rows : List Row}

/-- Structured code stands end to end. -/
theorem consecutive (h : Laid words scope options loop depth start is stop rows) :
    Consecutive start is stop := by
  induction h with
  | nil => rfl
  | plain statement _ ih => exact ⟨statement.position, statement.size, ih⟩
  | ifThen branch _ _ ihbody ih => exact ⟨branch.position, branch.size, ihbody.append ih⟩
  | ifElse branch _ _ jump _ _ _ ihyes ihno ih =>
      exact ⟨branch.position, branch.size,
        ihyes.append ⟨jump.position, jump.size, ihno.append ih⟩⟩
  | whileLoop branch _ jump _ ihbody ih =>
      exact ⟨branch.position, branch.size, ihbody.append ⟨jump.position, jump.size, ih⟩⟩
  | doUntil _ branch _ ihbody ih => exact ihbody.append ⟨branch.position, branch.size, ih⟩
  | forEach iterator _ advance leave _ ihbody ih =>
      exact ⟨iterator.position, iterator.size,
        ihbody.append ⟨advance.position, advance.size, leave.position, leave.size, ih⟩⟩
  | switch header _ chained _ _ ihbodies ih =>
      exact ⟨header.position, header.size, (chained.consecutive ihbodies).append ih⟩
  | breakLoop jump _ ih | continueLoop jump _ ih => exact ⟨jump.position, jump.size, ih⟩

end Laid

/-- A jump stays in its run, or it is a `break` or `continue` of what is around the run. -/
def Instruction.Stays (loop : Option Loop) (start stop : Nat) (i : Instruction) : Prop :=
  ∀ target, i.jumpTarget? = some target → start ≤ target ∧ target ≤ stop ∨ i.isDoUntil = false ∧
    ∃ l, loop = some l ∧ (l.guard = some target ∨ l.stop = target)

namespace Instruction.Stays

variable {loop : Option Loop} {start first last stop target : Nat} {i : Instruction}

theorem of_target (h : i.jumpTarget? = some target) (hstart : start ≤ target) (hstop : target ≤ stop) :
    i.Stays loop start stop := by
  intro target' h'
  cases h.symm.trans h'
  exact Or.inl ⟨hstart, hstop⟩

theorem of_none (h : i.jumpTarget? = none) : i.Stays loop start stop := by
  intro target h'
  cases h.symm.trans h'

theorem mono (h : i.Stays loop first last) (hfirst : start ≤ first) (hlast : last ≤ stop) :
    i.Stays loop start stop := fun target htarget =>
  (h target htarget).imp_left (And.imp (Nat.le_trans hfirst) (Nat.le_trans · hlast))

/-- A loop that lies inside a run holds its jumps inside the run. -/
theorem of_loop {inner : Loop} (h : i.Stays (some inner) first last) (hfirst : start ≤ first)
    (hlast : last ≤ stop) (hstop : start ≤ inner.stop ∧ inner.stop ≤ stop)
    (hguard : ∀ guard, inner.guard = some guard → start ≤ guard ∧ guard ≤ stop) : i.Stays loop start stop := by
  intro target htarget
  rcases h target htarget with ⟨hstart, hend⟩ | ⟨-, l, hl, hexit⟩
  · exact Or.inl ⟨Nat.le_trans hfirst hstart, Nat.le_trans hend hlast⟩
  · cases hl
    rcases hexit with hexit | rfl
    · exact Or.inl (hguard target hexit)
    · exact Or.inl hstop

end Instruction.Stays

/-- The jumps of an arm stay in its `switch`. -/
theorem Arm.Fits.stays {arm : Arm} {start exit : Nat} (h : arm.Fits start exit)
    (hbody : ∀ i ∈ arm.body, i.Stays (some ⟨exit, none⟩) arm.label.endPosition arm.leave.position)
    {loop : Option Loop} : ∀ i ∈ arm.code, i.Stays loop start exit := by
  have hlabel := (h.consecutive.bounds (List.mem_cons_self ..)).2.1
  have hleave := h.leave.lt
  have hcode := h.consecutive.le
  have hstart := h.start_le
  have hstop := h.stop_le
  simp only [Arm.code, List.forall_mem_cons, List.forall_mem_append]
  refine ⟨fun target htarget => ?_, fun i hi => ?_, .of_target h.leave.jumpTarget (by omega) (Nat.le_refl _), by simp⟩
  · rw [h.target target htarget]
    exact Or.inl ⟨Nat.le_trans hstart hcode, hstop⟩
  · exact (hbody i hi).of_loop (by omega) (by omega) ⟨by dsimp only; omega, Nat.le_refl _⟩
      fun guard hguard => by cases hguard

/-- The jumps of the arms stay in their `switch`. -/
theorem Chained.stays {words : Vocabulary} {scope : Scope} {exit start : Nat} {arms : List Arm}
    (h : Chained words scope exit start arms)
    (hbodies : ∀ arm ∈ arms, Consecutive arm.label.endPosition arm.body arm.leave.position)
    (hstays : ∀ arm ∈ arms, ∀ i ∈ arm.body, i.Stays (some ⟨exit, none⟩) arm.label.endPosition arm.leave.position)
    {loop : Option Loop} : ∀ i ∈ arms.flatMap Arm.code, i.Stays loop start exit := by
  intro i hi
  obtain ⟨arm, harm, hi⟩ := List.mem_flatMap.1 hi
  exact (h.fits hbodies arm harm).stays (hstays arm harm) i hi

theorem Laid.stays {words : Vocabulary} {scope : Scope} {options : Options} {loop : Option Loop}
    {depth start stop : Nat} {is : List Instruction} {rows : List Row}
    (h : Laid words scope options loop depth start is stop rows) : ∀ i ∈ is, i.Stays loop start stop := by
  induction h with
  | nil => simp
  | plain statement _ ih =>
      exact List.forall_mem_cons.2 ⟨.of_none statement.jumpTarget,
        fun i hi => (ih i hi).mono (Nat.le_of_lt statement.lt) (Nat.le_refl _)⟩
  | ifThen branch body rest ihbody ih =>
      have hbody := body.consecutive.le
      have hrest := rest.consecutive.le
      have hguard := branch.lt
      simp only [List.forall_mem_cons, List.forall_mem_append]
      exact ⟨.of_target branch.jumpTarget (by omega) hrest,
        fun i hi => (ihbody i hi).mono (by omega) hrest,
        fun i hi => (ih i hi).mono (by omega) (Nat.le_refl _)⟩
  | ifElse branch yes _ jump no _ rest ihyes ihno ih =>
      have hyes := yes.consecutive.le
      have hno := no.consecutive.le
      have hrest := rest.consecutive.le
      have hguard := branch.lt
      have hjump := jump.lt
      simp only [List.forall_mem_cons, List.forall_mem_append]
      exact ⟨.of_target branch.jumpTarget (by omega) (by omega),
        fun i hi => (ihyes i hi).mono (by omega) (by omega),
        .of_target jump.jumpTarget (by omega) hrest, fun i hi => (ihno i hi).mono (by omega) hrest,
        fun i hi => (ih i hi).mono (by omega) (Nat.le_refl _)⟩
  | whileLoop branch body jump rest ihbody ih =>
      have hbody := body.consecutive.le
      have hrest := rest.consecutive.le
      have hguard := branch.lt
      have hjump := jump.lt
      simp only [List.forall_mem_cons, List.forall_mem_append]
      refine ⟨.of_target branch.jumpTarget (by omega) hrest, fun i hi => ?_,
        .of_target jump.jumpTarget (Nat.le_refl _) (by omega),
        fun i hi => (ih i hi).mono (by omega) (Nat.le_refl _)⟩
      exact (ihbody i hi).of_loop (by omega) (by omega) (by dsimp only; omega)
        fun guard hguard => by cases hguard; omega
  | doUntil body branch rest ihbody ih =>
      have hbody := body.consecutive.le
      have hrest := rest.consecutive.le
      have htest := branch.lt
      simp only [List.forall_mem_cons, List.forall_mem_append]
      refine ⟨fun i hi => ?_, .of_target branch.jumpTarget (Nat.le_refl _) (by omega),
        fun i hi => (ih i hi).mono (by omega) (Nat.le_refl _)⟩
      exact (ihbody i hi).of_loop (Nat.le_refl _) (by omega) (by dsimp only; omega)
        fun guard hguard => by cases hguard
  | forEach iterator body advance leave rest ihbody ih =>
      have hbody := body.consecutive.le
      have hrest := rest.consecutive.le
      have hhead := iterator.lt
      have hnext := advance.lt
      have hpop := leave.lt
      have hposition := leave.position
      simp only [List.forall_mem_cons, List.forall_mem_append]
      refine ⟨.of_target iterator.jumpTarget (by omega) (by omega), fun i hi => ?_,
        .of_none advance.jumpTarget, .of_none leave.jumpTarget,
        fun i hi => (ih i hi).mono (by omega) (Nat.le_refl _)⟩
      exact (ihbody i hi).of_loop (by omega) (by omega) (by dsimp only; omega)
        fun guard hguard => by cases hguard
  | switch header _ chained bodies rest ihbodies ih =>
      have hbodies := fun arm harm => (bodies arm harm).consecutive
      have harms := (chained.consecutive hbodies).le
      have hhead := header.lt
      simp only [List.forall_mem_cons, List.forall_mem_append]
      exact ⟨.of_none header.jumpTarget,
        fun i hi => (chained.stays hbodies ihbodies i hi).mono (Nat.le_of_lt hhead) rest.consecutive.le,
        fun i hi => (ih i hi).mono (by omega) (Nat.le_refl _)⟩
  | @breakLoop loop _ _ _ _ _ _ jump rest ih =>
      refine List.forall_mem_cons.2 ⟨fun target htarget => ?_, fun i hi =>
        (ih i hi).mono (Nat.le_of_lt jump.lt) (Nat.le_refl _)⟩
      cases jump.jumpTarget.symm.trans htarget
      exact Or.inr ⟨jump.isDoUntil, loop, rfl, Or.inr rfl⟩
  | continueLoop jump rest ih =>
      refine List.forall_mem_cons.2 ⟨fun target htarget => ?_, fun i hi =>
        (ih i hi).mono (Nat.le_of_lt jump.lt) (Nat.le_refl _)⟩
      cases jump.jumpTarget.symm.trans htarget
      exact Or.inr ⟨jump.isDoUntil, _, rfl, Or.inl rfl⟩

/-- Structured code holds no label tables. -/
theorem Laid.no_labelTable {words : Vocabulary} {scope : Scope} {options : Options}
    {loop : Option Loop} {depth start stop : Nat} {is : List Instruction} {rows : List Row}
    (h : Laid words scope options loop depth start is stop rows) :
    ∀ i ∈ is, ∀ entries, i.token ≠ .labelTable entries := by
  induction h with
  | nil => simp
  | plain statement _ ih => exact List.forall_mem_cons.2 ⟨statement.no_labelTable, ih⟩
  | ifThen branch _ _ ihbody ih =>
      simp only [List.forall_mem_cons, List.forall_mem_append]
      exact ⟨no_labelTable_of_jumpTarget branch.jumpTarget, ihbody, ih⟩
  | ifElse branch _ _ jump _ _ _ ihyes ihno ih =>
      simp only [List.forall_mem_cons, List.forall_mem_append]
      exact ⟨no_labelTable_of_jumpTarget branch.jumpTarget, ihyes,
        no_labelTable_of_jumpTarget jump.jumpTarget, ihno, ih⟩
  | whileLoop branch _ jump _ ihbody ih =>
      simp only [List.forall_mem_cons, List.forall_mem_append]
      exact ⟨no_labelTable_of_jumpTarget branch.jumpTarget, ihbody,
        no_labelTable_of_jumpTarget jump.jumpTarget, ih⟩
  | doUntil _ branch _ ihbody ih =>
      simp only [List.forall_mem_cons, List.forall_mem_append]
      exact ⟨ihbody, no_labelTable_of_jumpTarget branch.jumpTarget, ih⟩
  | forEach iterator _ advance leave _ ihbody ih =>
      simp only [List.forall_mem_cons, List.forall_mem_append]
      exact ⟨no_labelTable_of_jumpTarget iterator.jumpTarget, ihbody, by simp [advance.token],
        by simp [leave.token], ih⟩
  | switch header _ chained bodies _ ihbodies ih =>
      obtain ⟨property, width, v, remark, hswitch, -⟩ := header.token
      simp only [List.forall_mem_cons, List.forall_mem_append]
      refine ⟨by simp [hswitch], fun i hi => ?_, ih⟩
      obtain ⟨arm, harm, hi⟩ := List.mem_flatMap.1 hi
      have hfits := chained.fits (fun arm harm => (bodies arm harm).consecutive) arm harm
      obtain ⟨t, v, hlabel⟩ := hfits.token
      simp only [Arm.code, List.mem_cons, List.mem_append, List.not_mem_nil, or_false] at hi
      rcases hi with rfl | hi | rfl
      · simp [hlabel]
      · exact ihbodies arm harm i hi
      · exact no_labelTable_of_jumpTarget hfits.leave.jumpTarget
  | breakLoop jump _ ih | continueLoop jump _ ih =>
      exact List.forall_mem_cons.2 ⟨no_labelTable_of_jumpTarget jump.jumpTarget, ih⟩

/-!
### What stands behind a run
-/

/-- The first of the instructions is written and is no label of a `switch`. -/
def Unlabelled (is : List Instruction) : Prop :=
  ∃ i rest, is = i :: rest ∧ i.opcode.isHidden = false ∧ ∀ t v, i.token ≠ .caseLabel t v

section

variable {words : Vocabulary} {scope : Scope} {i : Instruction} {position target : Nat} {is : List Instruction}

theorem IsBranch.unlabelled {condition : String} (h : IsBranch words scope i position target condition) :
    Unlabelled (i :: is) := by
  obtain ⟨t, c, remark, htoken, -⟩ := h.token
  exact ⟨i, is, rfl, by simp [h.opcode, Opcode.isHidden], by simp [htoken]⟩

theorem IsJump.unlabelled (h : IsJump i position target) : Unlabelled (i :: is) := by
  obtain ⟨t, htoken, -⟩ := h.token
  exact ⟨i, is, rfl, by simp [h.opcode, Opcode.isHidden], by simp [htoken]⟩

theorem IsBare.unlabelled {opcode : Opcode} (h : IsBare i position opcode) (hshown : opcode.isHidden = false) :
    Unlabelled (i :: is) :=
  ⟨i, is, rfl, h.opcode ▸ hshown, by simp [h.token]⟩

end

/-- Structured code does not start with a label of a `switch`. -/
theorem Laid.unlabelled {words : Vocabulary} {scope : Scope} {options : Options} {loop : Option Loop}
    {depth start stop : Nat} {is : List Instruction} {rows : List Row}
    (h : Laid words scope options loop depth start is stop rows) {after : List Instruction}
    (hafter : Unlabelled after) : Unlabelled (is ++ after) := by
  induction h generalizing after with
  | nil => exact hafter
  | plain statement _ _ => exact ⟨_, _, rfl, statement.shown, statement.no_caseLabel⟩
  | ifThen branch _ _ _ _ | ifElse branch _ _ _ _ _ _ _ _ _ | whileLoop branch _ _ _ _ _ =>
      exact branch.unlabelled
  | doUntil _ branch _ ihbody _ =>
      rw [List.append_assoc]
      exact ihbody branch.unlabelled
  | forEach iterator _ _ _ _ _ _ =>
      obtain ⟨c, t, remark, htoken, -⟩ := iterator.token
      exact ⟨_, _, rfl, by simp [iterator.opcode, Opcode.isHidden], by simp [htoken]⟩
  | switch header _ _ _ _ _ _ =>
      obtain ⟨property, width, v, remark, htoken, -⟩ := header.token
      exact ⟨_, _, rfl, by simp [header.opcode, Opcode.isHidden], by simp [htoken]⟩
  | breakLoop jump _ _ | continueLoop jump _ _ => exact jump.unlabelled

end ScriptBytecode
