/-
Module: ScriptBytecode.Proofs.Structured.Assembly
Purpose: Assembled programs have the shape of structured code. Each statement is laid out as its case of `Laid` asks
  for; the cases and the `default` of a `switch` become a chain of arms.
Main exports: Storage.isBranch, Storage.isCase, Exits.Fit, Flow.laid, Flow.laidAll
-/
import ScriptBytecode.Proofs.Structured.Shape

namespace ScriptBytecode

/-!
### Instructions of assembled programs
-/

section

variable (words : Vocabulary) (scope : Scope) (storage : Storage)

/-- Where an expression stands does not change how it is written. -/
theorem Storage.expression_plain (position : Nat) (statement : Instruction) :
    (storage.plain position statement).expression words scope = statement.expression words scope := by
  cases statement
  unfold Storage.plain Instruction.expression
  rfl

theorem Storage.statement_plain (position : Nat) (statement : Instruction) (insideSwitch : Bool) :
    (storage.plain position statement).statement words scope insideSwitch =
      statement.statement words scope insideSwitch := by
  unfold Instruction.statement
  rw [storage.expression_plain]
  rfl

theorem Storage.isStatement_plain {statement : Instruction} (h : statement.IsPlain words scope)
    (position : Nat) :
    IsStatement words scope (storage.plain position statement) position (statement.sourceLine words scope) := by
  obtain ⟨text, terminated, remark, htext, hwritten⟩ := h.written
  have hline : statement.sourceLine words scope =
      { position := statement.position, text, terminated, postComment := remark } := by
    simp only [Instruction.sourceLine, hwritten]
  rw [hline]
  exact ⟨⟨rfl, h.size⟩, h.shown, htext, (storage.statement_plain ..).symm ▸ hwritten⟩

theorem Instruction.Renders.run {c : Instruction} (h : c.Renders words scope) :
    ∃ remark, (c.expression words scope).run none = .ok (c.sourceText words scope) remark := by
  obtain ⟨text, remark, hrun⟩ := h
  exact ⟨remark, by simp only [Instruction.sourceText, hrun]⟩

theorem Storage.isBranch {condition : Instruction} (h : condition.Renders words scope)
    (position : Nat) {target : Nat} (htarget : target < UInt16.size) :
    IsBranch words scope (storage.branch position target condition) position target
      (condition.sourceText words scope) := by
  obtain ⟨remark, hrun⟩ := h.run
  exact ⟨⟨rfl, Nat.lt_of_lt_of_le (by decide) (Nat.le_add_right ..)⟩, rfl, _, _, remark, rfl,
    UInt16.toNat_ofNat_of_lt' htarget, hrun⟩

theorem Storage.isIterator {iterator : Instruction} (h : iterator.Renders words scope)
    (position : Nat) {stop : Nat} (hstop : stop < UInt16.size) :
    IsIterator words scope (storage.iterator position stop iterator) position stop
      (iterator.sourceText words scope) := by
  obtain ⟨remark, hrun⟩ := h.run
  exact ⟨⟨rfl, Nat.lt_of_lt_of_le (by decide) (Nat.le_add_right ..)⟩, rfl, _, _, remark, rfl,
    UInt16.toNat_ofNat_of_lt' hstop, hrun⟩

theorem Storage.isJump (position : Nat) {target : Nat} (htarget : target < UInt16.size) :
    IsJump (storage.jump position target) position target :=
  ⟨⟨rfl, Nat.succ_pos _⟩, rfl, rfl, _, rfl, UInt16.toNat_ofNat_of_lt' htarget⟩

theorem Storage.isSwitch {head : Instruction} (h : head.IsSwitchHead words scope) (position : Nat) :
    IsSwitch words scope (storage.plain position head) position (head.switchText words scope) := by
  obtain ⟨property, width, value, htoken, hvalue⟩ := h.token
  obtain ⟨remark, hrun⟩ := hvalue.run
  have htext : head.switchText words scope = value.sourceText words scope := by
    simp only [Instruction.switchText, htoken]
  exact ⟨⟨rfl, h.size⟩, h.opcode, property, width, value, remark, htoken, htext ▸ hrun⟩

theorem Storage.isCase {value : Instruction} (h : value.Renders words scope) (position : Nat) {target : Nat}
    (htarget : target < 0xFFFF) :
    IsCase words scope (storage.caseLabel position target value) position target
      (value.caseLine words scope) := by
  obtain ⟨text, remark, hrun⟩ := h
  have hsize : target < UInt16.size := Nat.lt_trans htarget (by decide)
  have hcase : UInt16.ofNat target ≠ defaultCaseTarget := by
    intro hdefault
    have htoNat := congrArg UInt16.toNat hdefault
    rw [UInt16.toNat_ofNat_of_lt' hsize] at htoNat
    exact Nat.ne_of_lt htarget htoNat
  exact ⟨⟨rfl, Nat.lt_of_lt_of_le (by decide) (Nat.le_add_right ..)⟩, rfl, _, value, text, remark, rfl,
    hcase, UInt16.toNat_ofNat_of_lt' hsize, hrun, by simp only [Instruction.caseLine, hrun]⟩

theorem Storage.isDefault (position : Nat) :
    IsDefault (storage.defaultLabel position) position defaultLine :=
  ⟨⟨rfl, Nat.succ_pos _⟩, rfl, rfl, rfl⟩

theorem Storage.isBare_iteratorNext (position : Nat) :
    IsBare (storage.iteratorNext position) position .iteratorNext :=
  ⟨⟨rfl, Nat.succ_pos _⟩, rfl, rfl⟩

theorem Storage.isBare_iteratorPop (position : Nat) :
    IsBare (storage.iteratorPop position) position .iteratorPop :=
  ⟨⟨rfl, Nat.succ_pos _⟩, rfl, rfl⟩

end

/-- The loop around a statement, with its exits. -/
def Enclosing.loop (exits : Exits) : Enclosing → Option Loop
  | .noLoop => none
  | .whileLoop => some ⟨exits.stop, some exits.guard⟩
  | .otherLoop => some ⟨exits.stop, none⟩

/-- The positions that jumps can lead to. -/
def Exits.Fit (exits : Exits) : Prop := exits.stop < UInt16.size ∧ exits.guard < UInt16.size

theorem Exits.fit_of_lt {stop guard : Nat} (hstop : stop < 0xFFFF) (hguard : guard ≤ stop) :
    Exits.Fit ⟨stop, guard⟩ := by
  have hlt : stop < UInt16.size := Nat.lt_trans hstop (by decide)
  exact ⟨hlt, Nat.lt_of_le_of_lt hguard hlt⟩

section

variable (words : Vocabulary) (scope : Scope) (storage : Storage) (options : Options) (exit depth start : Nat)

/-- The arm of an assembled `switch` under a label. -/
def Flow.arm (label : Instruction) (line : Line) (body : List Flow) : Arm where
  label := label
  line := line
  body := assembleAll storage ⟨exit, label.position⟩ label.endPosition body
  rows := rowsAll words scope options (depth + 1) body
  leave := storage.jump (label.endPosition + sizeAll body) exit

def Flow.caseArm (value : Instruction) (body : List Flow) : Arm :=
  arm words scope storage options exit depth
    (storage.caseLabel start (start + caseSize value + sizeAll body + jumpSize) value)
    (value.caseLine words scope) body

def Flow.defaultArm (body : List Flow) : Arm :=
  arm words scope storage options exit depth (storage.defaultLabel start) defaultLine body

end

/-- The arms stand for some instructions and lines. -/
structure ArmsLaid (words : Vocabulary) (scope : Scope) (options : Options) (exit depth : Nat) (arms : List Arm)
    (is : List Instruction) (rows : List Row) : Prop where
  bodies : ∀ arm ∈ arms, Laid words scope options (some ⟨exit, none⟩) (depth + 1) arm.label.endPosition
    arm.body arm.leave.position arm.rows
  code : arms.flatMap Arm.code = is
  lines : arms.flatMap (Arm.lines options depth) = rows

namespace ArmsLaid

variable {words : Vocabulary} {scope : Scope} {options : Options} {exit depth : Nat}

theorem nil : ArmsLaid words scope options exit depth [] [] [] := ⟨by simp, rfl, rfl⟩

theorem cons {arm : Arm} {arms : List Arm} {is : List Instruction} {rows : List Row}
    (hbody : Laid words scope options (some ⟨exit, none⟩) (depth + 1) arm.label.endPosition arm.body
      arm.leave.position arm.rows)
    (h : ArmsLaid words scope options exit depth arms is rows) :
    ArmsLaid words scope options exit depth (arm :: arms) (arm.label :: (arm.body ++ arm.leave :: is))
      (armRows options depth arm.line arm.rows ++ rows) where
  bodies := List.forall_mem_cons.2 ⟨hbody, h.bodies⟩
  code := by simp [Arm.code, h.code]
  lines := by simp [Arm.lines, h.lines]

end ArmsLaid

/-!
### Statements
-/

section

variable {words : Vocabulary} {scope : Scope} {storage : Storage} {options : Options}

theorem Flow.size_pos {enclosing : Enclosing} {s : Flow} (h : s.WellFormed words scope enclosing) :
    0 < s.size := by
  have hjump : 0 < jumpSize := Nat.succ_pos _
  cases s with
  | plain statement => exact (show statement.IsPlain words scope from h).size
  | switch head cases fallback =>
      have hhead := h.1.size
      simp only [Flow.size]
      omega
  | _ => simp only [Flow.size, branchSize, iteratorSize]; omega

theorem Flow.sizeAll_pos {enclosing : Enclosing} {program : List Flow} (hne : program ≠ [])
    (h : WellFormedAll words scope enclosing program) : 0 < sizeAll program := by
  cases program with
  | nil => exact absurd rfl hne
  | cons s rest => exact Nat.lt_of_lt_of_le (size_pos h.1) (Nat.le_add_right ..)

mutual

/-- The instructions of a statement stand for its lines. -/
theorem Flow.laid : ∀ (s : Flow) {enclosing : Enclosing} {exits : Exits} {depth start stop : Nat}
    {is : List Instruction} {rows : List Row}, s.WellFormed words scope enclosing → exits.Fit →
    start + s.size < 0xFFFF →
    Laid words scope options (enclosing.loop exits) depth (start + s.size) is stop rows →
    Laid words scope options (enclosing.loop exits) depth start
      (s.assemble storage exits start ++ is) stop (s.rows words scope options depth ++ rows)
  | .plain statement, _, _, _, start, _, _, _, hwf, _, _, hrest =>
      .plain (storage.isStatement_plain words scope hwf start) hrest
  | .ifThen condition body, enclosing, exits, depth, start, _, _, _, hwf, hexits, hfits, hrest => by
      simp only [Flow.size, ← Nat.add_assoc] at hfits hrest
      exact .ifThen (storage.isBranch words scope hwf.1 start (Nat.lt_trans hfits (by decide)))
        (laidAll body hwf.2 hexits hfits) hrest
  | .ifElse condition yes no, enclosing, exits, depth, start, _, _, _, hwf, hexits, hfits, hrest => by
      simp only [Flow.size, ← Nat.add_assoc] at hfits hrest
      obtain ⟨hcondition, hyes, hno, hwfyes, hwfno⟩ := hwf
      have hyes := sizeAll_pos hyes hwfyes
      have hno := sizeAll_pos hno hwfno
      have hlt : _ < UInt16.size := Nat.lt_trans hfits (by decide)
      have hsecond : start + branchSize condition + sizeAll yes + jumpSize < UInt16.size := by omega
      have hmiddle : start + branchSize condition + sizeAll yes < 0xFFFF := by omega
      simp only [Flow.assemble, List.cons_append, List.append_assoc]
      exact .ifElse (storage.isBranch words scope hcondition start hsecond) (laidAll yes hwfyes hexits hmiddle)
        (Nat.lt_add_of_pos_right hyes) (storage.isJump _ hlt)
        (laidAll no hwfno hexits hfits)
        (Nat.lt_add_of_pos_right hno) hrest
  | .whileLoop condition body, _, _, depth, start, _, _, _, hwf, _, hfits, hrest => by
      simp only [Flow.size, ← Nat.add_assoc] at hfits hrest
      have hlt : _ < UInt16.size := Nat.lt_trans hfits (by decide)
      have hstart : start < UInt16.size := by omega
      have hexits : Exits.Fit ⟨_, start⟩ := ⟨hlt, hstart⟩
      have hmiddle : start + branchSize condition + sizeAll body < 0xFFFF := by omega
      simp only [Flow.assemble, List.cons_append, List.append_assoc]
      exact .whileLoop (storage.isBranch words scope hwf.1 start hlt)
        (laidAll body hwf.2 hexits hmiddle) (storage.isJump _ hstart) hrest
  | .doUntil body condition, _, _, depth, start, _, _, _, hwf, _, hfits, hrest => by
      simp only [Flow.size, ← Nat.add_assoc] at hfits hrest
      have hlt : _ < UInt16.size := Nat.lt_trans hfits (by decide)
      have hstart : start < UInt16.size := by omega
      have hexits : Exits.Fit ⟨_, start⟩ := ⟨hlt, hstart⟩
      have htest : start + sizeAll body < 0xFFFF := by omega
      simp only [Flow.assemble, List.cons_append, List.append_assoc]
      exact .doUntil (laidAll body hwf.2 hexits htest) (storage.isBranch words scope hwf.1 _ hstart) hrest
  | .forEach iterator body, _, _, depth, start, _, _, _, hwf, _, hfits, hrest => by
      simp only [Flow.size, ← Nat.add_assoc] at hfits hrest
      have hlt : _ < UInt16.size := Nat.lt_trans hfits (by decide)
      have hpop : start + iteratorSize iterator + sizeAll body + iteratorNextSize < UInt16.size := by omega
      have hexits : Exits.Fit ⟨_, start⟩ := ⟨hpop, by dsimp only; omega⟩
      have hnext : start + iteratorSize iterator + sizeAll body < 0xFFFF := by omega
      simp only [Flow.assemble, List.cons_append, List.append_assoc]
      exact .forEach (storage.isIterator words scope hwf.1 start hpop) (laidAll body hwf.2 hexits hnext)
        (storage.isBare_iteratorNext _) (storage.isBare_iteratorPop _) hrest
  | .switch head cases fallback, _, _, depth, start, _, _, _, hwf, _, hfits, hrest => by
      obtain ⟨hhead, hne, hcases, hdefault⟩ := hwf
      simp only [Flow.size, ← Nat.add_assoc] at hfits hrest
      obtain ⟨tail, htail, hlast⟩ := laidDefault (depth + 1) fallback hdefault hfits rfl
      obtain ⟨arms, harms, hcased, hall⟩ := laidCases cases hcases hfits (Nat.le_add_right ..) rfl htail hlast
      have hswitch := Laid.switch (storage.isSwitch words scope hhead start) (hcased hne) harms hall.bodies hrest
      rw [hall.code, hall.lines] at hswitch
      exact hswitch
  | .breakLoop, enclosing, exits, _, start, _, _, _, hwf, hexits, _, hrest => by
      cases enclosing with
      | noLoop => exact absurd rfl hwf
      | whileLoop => exact .breakLoop (storage.isJump start hexits.1) hrest
      | otherLoop => exact .breakLoop (storage.isJump start hexits.1) hrest
  | .continueLoop, enclosing, exits, _, start, _, _, _, hwf, hexits, _, hrest => by
      obtain rfl : enclosing = .whileLoop := hwf
      exact .continueLoop (storage.isJump start hexits.2) hrest

/-- The instructions of a sequence of statements stand for its lines. -/
theorem Flow.laidAll : ∀ (program : List Flow) {enclosing : Enclosing} {exits : Exits}
    {depth start : Nat}, WellFormedAll words scope enclosing program → exits.Fit →
    start + sizeAll program < 0xFFFF →
    Laid words scope options (enclosing.loop exits) depth start
      (assembleAll storage exits start program) (start + sizeAll program)
      (rowsAll words scope options depth program)
  | [], _, _, _, _, _, _, _ => .nil
  | s :: rest, enclosing, exits, depth, start, hwf, hexits, hfits => by
      simp only [sizeAll, ← Nat.add_assoc] at hfits ⊢
      exact laid s hwf.1 hexits (Nat.lt_of_le_of_lt (Nat.le_add_right ..) hfits) (laidAll rest hwf.2 hexits hfits)

/-- The cases of a `switch` stand for their lines, in front of the arms behind them. -/
theorem Flow.laidCases : ∀ (cases : List (Instruction × List Flow)) {depth start middle exit : Nat}
    {tail : List Arm} {is : List Instruction} {rows : List Row}, WellFormedCases words scope cases →
    exit < 0xFFFF → middle ≤ exit → start + sizeCases cases = middle →
    Chained words scope exit middle tail → ArmsLaid words scope options exit depth tail is rows →
    ∃ arms, Chained words scope exit start arms ∧ (cases ≠ [] → StartsWithCase arms) ∧
      ArmsLaid words scope options exit depth arms (assembleCases storage exit start cases ++ is)
        (rowsCases words scope options depth cases ++ rows)
  | [], _, _, _, _, tail, _, _, _, _, _, hsize, hchained, htail => by
      obtain rfl := hsize
      exact ⟨tail, hchained, fun hne => absurd rfl hne, htail⟩
  | (value, body) :: cases, depth, start, middle, exit, tail, is, rows, hwf, hexit, hmiddle, hsize, hchained,
      htail => by
      obtain ⟨hvalue, hbody, hcases⟩ := hwf
      simp only [sizeCases, ← Nat.add_assoc] at hsize
      have hstop : Exits.Fit ⟨exit, start⟩ := Exits.fit_of_lt hexit (by omega)
      have hbodyFits : start + caseSize value + sizeAll body < 0xFFFF := by omega
      obtain ⟨arms, harms, -, hmore⟩ := laidCases cases hcases hexit hmiddle hsize hchained htail
      have hlabel := storage.isCase words scope hvalue start
        (show start + caseSize value + sizeAll body + jumpSize < 0xFFFF by omega)
      refine ⟨Flow.caseArm words scope storage options exit depth start value body :: arms,
        .cons hlabel (storage.isJump _ hstop.1) harms,
        fun _ => ⟨_, arms, rfl, Option.isSome_of_eq_some hlabel.jumpTarget⟩, ?_⟩
      simp only [assembleCases, rowsCases, List.cons_append, List.append_assoc]
      exact .cons (laidAll body hbody hstop hbodyFits) hmore

/-- The `default` of a `switch` stands for its lines. -/
theorem Flow.laidDefault (depth : Nat) : ∀ (fallback : Option (List Flow)) {start exit : Nat},
    WellFormedDefault words scope fallback → exit < 0xFFFF → start + sizeDefault fallback = exit →
    ∃ arms, Chained words scope exit start arms ∧
      ArmsLaid words scope options exit depth arms (assembleDefault storage exit start fallback)
        (rowsDefault words scope options depth fallback)
  | none, _, _, _, _, hsize => by
      obtain rfl := hsize
      exact ⟨[], .nil, .nil⟩
  | some body, start, exit, hwf, hexit, hsize => by
      simp only [sizeDefault, ← Nat.add_assoc] at hsize
      have hstop : Exits.Fit ⟨exit, start⟩ := Exits.fit_of_lt hexit (by omega)
      have hbodyFits : start + defaultSize + sizeAll body < 0xFFFF := by omega
      have hall : ArmsLaid words scope options exit depth
          [Flow.defaultArm words scope storage options exit depth start body]
          (assembleDefault storage exit start (some body))
          (rowsDefault words scope options depth (some body) ++ []) :=
        .cons (laidAll body hwf hstop hbodyFits) .nil
      rw [List.append_nil] at hall
      refine ⟨_, ?_, hall⟩
      exact .fallback (storage.isDefault _) (storage.isJump _ hstop.1) hsize

end

end

end ScriptBytecode
