/-
Module: ScriptBytecode.Proofs.Structured.Switches
Purpose: Programs with `switch` come back from their bytecode. Nothing in the bytecode says where a `switch` ends, and
  still every one of them is found to end where it was laid out, in whatever it is nested. Main statement: decompiling
  an assembled program with `switch` gives the text of the program.
Main exports: Body.EndsSwitch, Flow.endsSwitchAll, decompile_flow
-/
import ScriptBytecode.Proofs.Structured.Decompile

namespace ScriptBytecode

/-!
### Ends of `switch` statements
-/

/-- A `switch` starts at the first position, and its end is taken to be the second one, if it may reach that far. -/
def Body.EndsSwitch (body : Body) (span : Nat × Nat) : Prop :=
  ∃ index i, body.instructions[index]? = some i ∧ i.position = span.1 ∧ i.opcode = .switch ∧
    ∀ limit, span.2 ≤ limit → body.switchEnd index limit = span.2

section

variable {words : Vocabulary} {scope : Scope} {storage : Storage} {body : Body}

/-- An assembled `switch` ends where it was laid out. -/
theorem Flow.endsSwitch_switch {head : Instruction} {cases : List (Instruction × List Flow)}
    {fallback : Option (List Flow)} {enclosing : Enclosing} {exits : Exits} {start index : Nat}
    {after : List Instruction} (hwf : (Flow.switch head cases fallback).WellFormed words scope enclosing)
    (hfits : start + head.size + sizeCases cases + sizeDefault fallback < 0xFFFF)
    (hholds : body.Holds index ((Flow.switch head cases fallback).assemble storage exits start) after)
    (hbehind : Unlabelled after) :
    body.EndsSwitch (start, start + head.size + sizeCases cases + sizeDefault fallback) := by
  obtain ⟨hhead, hne, hcases, hdefault⟩ := hwf
  set exit := start + head.size + sizeCases cases + sizeDefault fallback
  obtain ⟨tail, htail, hlast⟩ : ∃ arms, Chained words scope exit (start + head.size + sizeCases cases) arms ∧
      ArmsLaid words scope {} exit 0 arms (assembleDefault storage exit _ fallback) _ :=
    laidDefault 0 fallback hdefault hfits rfl
  obtain ⟨arms, harms, hcased, hall⟩ : ∃ arms, Chained words scope exit (start + head.size) arms ∧
      (cases ≠ [] → StartsWithCase arms) ∧ ArmsLaid words scope {} exit 0 arms
        (assembleCases storage exit (start + head.size) cases ++
          assembleDefault storage exit (start + head.size + sizeCases cases) fallback) _ :=
    laidCases cases hcases hfits (Nat.le_add_right ..) rfl htail hlast
  have hswitch := storage.isSwitch words scope hhead start
  refine ⟨index, _, hholds.getElem?, rfl, hswitch.opcode, fun limit hlimit => ?_⟩
  have hplaced : body.Holds index (storage.plain start head :: (arms.flatMap Arm.code ++ [])) after := by
    rw [List.append_nil, hall.code]
    exact hholds
  exact Body.switchEnd_chained hswitch (hcased hne) harms hall.bodies hplaced hbehind hlimit

-- Behind the code of a statement there must be no label: a `switch` without `default` at its end would take that label
-- for one of its own cases.
mutual

/-- Every `switch` in a statement ends where it was laid out. -/
theorem Flow.endsSwitch : ∀ (s : Flow) {enclosing : Enclosing} {exits : Exits} {start index : Nat}
    {after : List Instruction}, s.WellFormed words scope enclosing → exits.Fit → start + s.size < 0xFFFF →
    body.Holds index (s.assemble storage exits start) after → Unlabelled after →
    ∀ span ∈ s.spans start, body.EndsSwitch span
  | .plain _, _, _, _, _, _, _, _, _, _, _ | .breakLoop, _, _, _, _, _, _, _, _, _, _
  | .continueLoop, _, _, _, _, _, _, _, _, _, _ => nofun
  | .ifThen condition block, _, _, _, _, _, hwf, hexits, hfits, hholds, hbehind => by
      simp only [Flow.size, ← Nat.add_assoc] at hfits
      exact endsSwitchAll block hwf.2 hexits hfits hholds.tail hbehind
  | .ifElse condition yes no, _, _, start, _, _, hwf, hexits, hfits, hholds, hbehind => by
      obtain ⟨-, -, -, hyes, hno⟩ := hwf
      simp only [Flow.size, ← Nat.add_assoc] at hfits
      have hmiddle : start + branchSize condition + sizeAll yes < 0xFFFF := by omega
      refine List.forall_mem_append.2 ⟨?_, ?_⟩
      · exact endsSwitchAll yes hyes hexits hmiddle hholds.tail.left ⟨_, _, rfl, rfl, nofun⟩
      · exact endsSwitchAll no hno hexits hfits hholds.tail.right.tail hbehind
  | .whileLoop condition block, _, _, start, _, _, hwf, _, hfits, hholds, _ => by
      simp only [Flow.size, ← Nat.add_assoc] at hfits
      have hmiddle : start + branchSize condition + sizeAll block < 0xFFFF := by omega
      have hexits : Exits.Fit ⟨_, start⟩ := Exits.fit_of_lt hfits (by omega)
      exact endsSwitchAll block hwf.2 hexits hmiddle hholds.tail.left ⟨_, _, rfl, rfl, nofun⟩
  | .doUntil block condition, _, _, start, _, _, hwf, _, hfits, hholds, _ => by
      simp only [Flow.size, ← Nat.add_assoc] at hfits
      have hmiddle : start + sizeAll block < 0xFFFF := by omega
      have hexits : Exits.Fit ⟨_, start⟩ := Exits.fit_of_lt hfits (by omega)
      exact endsSwitchAll block hwf.2 hexits hmiddle hholds.left ⟨_, _, rfl, rfl, nofun⟩
  | .forEach iterator block, _, _, start, _, _, hwf, _, hfits, hholds, _ => by
      simp only [Flow.size, ← Nat.add_assoc] at hfits
      have hpop : start + iteratorSize iterator + sizeAll block + iteratorNextSize < 0xFFFF := by omega
      have hmiddle : start + iteratorSize iterator + sizeAll block < 0xFFFF := by omega
      have hexits : Exits.Fit ⟨_, start⟩ := Exits.fit_of_lt hpop (by omega)
      exact endsSwitchAll block hwf.2 hexits hmiddle hholds.tail.left ⟨_, _, rfl, rfl, nofun⟩
  | .switch head cases fallback, _, _, start, _, _, hwf, _, hfits, hholds, hbehind => by
      simp only [Flow.size, ← Nat.add_assoc] at hfits
      refine List.forall_mem_cons.2 ⟨endsSwitch_switch hwf hfits hholds hbehind, ?_⟩
      obtain ⟨-, -, hcases, hdefault⟩ := hwf
      refine List.forall_mem_append.2 ⟨?_, ?_⟩
      · exact endsSwitchCases cases hcases hfits (Nat.le_add_right ..) hholds.tail.left
      · exact endsSwitchDefault fallback hdefault hfits (Nat.le_refl _) hholds.tail.right

/-- Every `switch` in a sequence of statements ends where it was laid out. -/
theorem Flow.endsSwitchAll : ∀ (program : List Flow) {enclosing : Enclosing} {exits : Exits} {start index : Nat}
    {after : List Instruction}, WellFormedAll words scope enclosing program → exits.Fit →
    start + sizeAll program < 0xFFFF → body.Holds index (assembleAll storage exits start program) after →
    Unlabelled after → ∀ span ∈ spansAll start program, body.EndsSwitch span
  | [], _, _, _, _, _, _, _, _, _, _ => nofun
  | s :: rest, enclosing, exits, start, _, _, hwf, hexits, hfits, hholds, hbehind => by
      simp only [sizeAll, ← Nat.add_assoc] at hfits
      have hrest : Laid words scope {} (enclosing.loop exits) 0 (start + s.size)
          (assembleAll storage exits (start + s.size) rest) _ _ := laidAll rest hwf.2 hexits hfits
      refine List.forall_mem_append.2 ⟨?_, ?_⟩
      · exact endsSwitch s hwf.1 hexits (by omega) hholds.left (hrest.unlabelled hbehind)
      · exact endsSwitchAll rest hwf.2 hexits hfits hholds.right hbehind

/-- Every `switch` in the cases of another one ends where it was laid out. -/
theorem Flow.endsSwitchCases : ∀ (cases : List (Instruction × List Flow)) {exit start index : Nat}
    {after : List Instruction}, WellFormedCases words scope cases → exit < 0xFFFF →
    start + sizeCases cases ≤ exit → body.Holds index (assembleCases storage exit start cases) after →
    ∀ span ∈ spansCases start cases, body.EndsSwitch span
  | [], _, _, _, _, _, _, _, _ => nofun
  | (value, block) :: rest, exit, start, _, _, hwf, hexit, hfits, hholds => by
      obtain ⟨-, hblock, hrest⟩ := hwf
      simp only [sizeCases, ← Nat.add_assoc] at hfits
      have hmiddle : start + caseSize value + sizeAll block < 0xFFFF := by omega
      have hexits : Exits.Fit ⟨exit, start⟩ := Exits.fit_of_lt hexit (by omega)
      refine List.forall_mem_append.2 ⟨?_, ?_⟩
      · exact endsSwitchAll block hblock hexits hmiddle hholds.tail.left ⟨_, _, rfl, rfl, nofun⟩
      · exact endsSwitchCases rest hrest hexit hfits hholds.tail.right.tail

/-- Every `switch` in the `default` of another one ends where it was laid out. -/
theorem Flow.endsSwitchDefault : ∀ (fallback : Option (List Flow)) {exit start index : Nat}
    {after : List Instruction}, WellFormedDefault words scope fallback → exit < 0xFFFF →
    start + sizeDefault fallback ≤ exit → body.Holds index (assembleDefault storage exit start fallback) after →
    ∀ span ∈ spansDefault start fallback, body.EndsSwitch span
  | none, _, _, _, _, _, _, _, _ => nofun
  | some block, exit, start, _, _, hwf, hexit, hfits, hholds => by
      simp only [sizeDefault, ← Nat.add_assoc] at hfits
      have hmiddle : start + defaultSize + sizeAll block < 0xFFFF := by omega
      have hexits : Exits.Fit ⟨exit, start⟩ := Exits.fit_of_lt hexit (by omega)
      exact endsSwitchAll block hwf hexits hmiddle hholds.tail.left ⟨_, _, rfl, rfl, nofun⟩

end

end

/-!
### Texts of programs
-/

/-- The code of a program is at the beginning of its body, in front of what compilers add. -/
theorem Flow.holds_assembleBody {storage : Storage} {program : List Flow} {body : Body} {words : Vocabulary}
    {scope : Scope} {options : Options} {rows : List Row}
    (h : Laid words scope options none 0 0 (assembleAll storage {} 0 program) (sizeAll program) rows)
    (hbody : body.instructions.toList = assembleBody storage program) :
    body.Holds 0 (assembleAll storage {} 0 program) (storage.epilogue (sizeAll program)) := by
  refine ⟨⟨0, sizeAll program + 3, ?_⟩, hbody⟩
  rw [hbody]
  exact h.consecutive.append ⟨rfl, Nat.succ_pos _, rfl, Nat.succ_pos _, rfl⟩

/-- Decompiling an assembled program with `switch` gives the text of the program, and every `switch` of it is found to
    end where it was laid out, whatever it is nested in. -/
theorem decompile_flow (words : Vocabulary) (options : Options) (storage : Storage) (program : List Flow)
    (body : Body) (hsuppress : options.suppressImplicitReturn = true)
    (hwf : Flow.WellFormedAll words {} .noLoop program) (hfits : Flow.sizeAll program < 0xFFFF)
    (hbody : body.instructions.toList = Flow.assembleBody storage program) :
    (body.decompile words (Context.new options)).1 = Flow.text words options program ∧
      ∀ span ∈ Flow.spansAll 0 program, body.EndsSwitch span := by
  have hlaid : Laid words {} options none 0 0 (Flow.assembleAll storage {} 0 program) _ _ :=
    Flow.laid_program hwf hfits
  constructor
  · exact hlaid.decompile hsuppress hbody
  · rw [← Nat.zero_add (Flow.sizeAll program)] at hfits
    exact Flow.endsSwitchAll program hwf ⟨by decide, by decide⟩ hfits (Flow.holds_assembleBody hlaid hbody)
      ⟨_, _, rfl, rfl, nofun⟩

/-- The head of a `switch` over a value. -/
def selector (value : Instruction) : Instruction :=
  bytewise.instruction .switch 0 (2 + value.size) (.switch none 4 value)

/-- Ends that meet: in a `while` loop, the first arm ends with a `switch` without `default`, whose only case ends with a
    loop; the `default` ends with an `if` with `else`, which leaves the `switch` from inside. -/
def choosing : List Flow :=
  [.whileLoop (keyword .boolTrue)
    [.switch (selector (keyword .selfObject))
      [(keyword .intZero,
          [.switch (selector (keyword .selfObject))
            [(keyword .intOne, [.forEach (keyword .selfObject) [.plain (keyword .stop), .breakLoop]])] none]),
        (keyword .intOne, [])]
      (some
        [.ifElse (keyword .boolFalse)
          [.breakLoop]
          [.whileLoop (keyword .boolFalse) [.continueLoop]]])]]

def choosingBody : Body where
  declaration := "choosing"
  declaredSize := 80
  format := ⟨0, 0⟩
  instructions := (Flow.assembleBody bytewise choosing).toArray
  failure := none

theorem decompile_flow_choosing :
    ({} : Options).suppressImplicitReturn = true ∧ Flow.WellFormedAll noWords {} .noLoop choosing ∧
      Flow.sizeAll choosing < 0xFFFF ∧
      choosingBody.instructions.toList = Flow.assembleBody bytewise choosing ∧
      Flow.spansAll 0 choosing = [(4, 67), (11, 31)] ∧
      (choosingBody.decompile noWords (Context.new {})).1 = Flow.text noWords {} choosing ∧
      choosingBody.EndsSwitch (4, 67) ∧ choosingBody.EndsSwitch (11, 31) := by
  have htrue : (keyword .boolTrue).Renders noWords {} := ⟨"true", none, by rfl⟩
  have hfalse : (keyword .boolFalse).Renders noWords {} := ⟨"false", none, by rfl⟩
  have hself : (keyword .selfObject).Renders noWords {} := ⟨"self", none, by rfl⟩
  have hzero : (keyword .intZero).Renders noWords {} := ⟨"0", none, by rfl⟩
  have hone : (keyword .intOne).Renders noWords {} := ⟨"1", none, by rfl⟩
  have hstop : (keyword .stop).IsPlain noWords {} :=
    ⟨by decide, rfl, "stop", true, none, by decide, by rfl⟩
  have hselector : (selector (keyword .selfObject)).IsSwitchHead noWords {} :=
    ⟨by decide, rfl, none, 4, keyword .selfObject, rfl, hself⟩
  have hwf : Flow.WellFormedAll noWords {} .noLoop choosing := by
    simp [choosing, Flow.WellFormedAll, Flow.WellFormed, Flow.WellFormedCases, Flow.WellFormedDefault, htrue, hfalse,
      hself, hzero, hone, hstop, hselector]
  have hfits : Flow.sizeAll choosing < 0xFFFF := by decide
  have hspans : Flow.spansAll 0 choosing = [(4, 67), (11, 31)] := by decide
  obtain ⟨htext, hends⟩ := decompile_flow noWords {} bytewise choosing choosingBody rfl hwf hfits rfl
  exact ⟨rfl, hwf, hfits, rfl, hspans, htext, hends _ (by simp [hspans]), hends _ (by simp [hspans])⟩

example : (Flow.rowsAll noWords {} { braceStyle := .sameLine } 0 choosing).map (fun row => (row.depth, row.text)) =
    [(0, "while(true) \x7b"),
      (1, "switch(self) \x7b"),
      (2, "case 0:"),
      (3, "switch(self) \x7b"),
      (4, "case 1:"),
      (5, "foreach self \x7b"),
      (6, "stop;"),
      (6, "break;"),
      (5, "\x7d"),
      (5, "break;"),
      (3, "\x7d"),
      (3, "break;"),
      (2, "case 1:"),
      (3, "break;"),
      (2, "default:"),
      (3, "if(false) \x7b"),
      (4, "break;"),
      (3, "\x7d else \x7b"),
      (4, "while(false) \x7b"),
      (5, "continue;"),
      (4, "\x7d"),
      (3, "\x7d"),
      (3, "break;"),
      (1, "\x7d"),
      (0, "\x7d")] := by
  cbv

end ScriptBytecode
