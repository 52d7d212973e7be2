/-
Module: ScriptBytecode.Proofs.Walk.Statements
Purpose: What an instruction can be as a statement: a jump is a statement that may jump to its target and nothing else
  is, and the arms of a `switch` are statements only where a `switch` is open.
Main exports: Instruction.branchTarget?, Statement.jumpsTo?, Statement.isArm, Render.Yields,
  Instruction.statement_yields
-/
import ScriptBytecode.Statement

namespace ScriptBytecode

/-- Target of a jump, conditional or not. -/
def Instruction.branchTarget? (i : Instruction) : Option Nat :=
  match i.token with
  | .jump target | .jumpIfNot target _ => some target.toNat
  | _ => none

namespace Statement

/-- Where a statement may jump to. -/
def jumpsTo? : Statement → Option Nat
  | .branch target _ | .jump target => some target
  | _ => none

/-- An arm of a `switch`. -/
def isArm : Statement → Bool
  | .caseArm _ _ | .defaultArm => true
  | _ => false

end Statement

/-- Every result of the rendering satisfies a property. -/
def Render.Yields {α : Type} (render : Render α) (good : α → Prop) : Prop :=
  ∀ before after result, render.run before = .ok result after → good result

namespace Render

variable {α β : Type} {good : β → Prop}

theorem yields_pure {result : β} (h : good result) : Yields (pure result) good := by
  intro before after other hrun
  cases hrun
  exact h

theorem yields_bind {render : Render α} {next : α → Render β} (h : ∀ a, (next a).Yields good) :
    Yields (render >>= next) good := by
  intro before after result hrun
  change EStateM.bind render next before = _ at hrun
  unfold EStateM.bind at hrun
  split at hrun
  · exact h _ _ _ _ hrun
  · cases hrun

end Render

open Render in
/-- Only jumps are statements that may jump, and arms are statements only inside a `switch`. -/
theorem Instruction.statement_yields (words : Vocabulary) (scope : Scope) (insideSwitch : Bool) (i : Instruction) :
    (i.statement words scope insideSwitch).Yields fun statement =>
      statement.jumpsTo? = i.branchTarget? ∧ (statement.isArm = true → insideSwitch = true) := by
  unfold Instruction.statement Instruction.branchTarget?
  split
  case h_1 htoken => exact yields_bind fun _ => yields_pure ⟨by rw [htoken]; rfl, nofun⟩
  case h_2 htoken => exact yields_pure ⟨by rw [htoken]; rfl, nofun⟩
  case h_5 htoken =>
    split
    · rename_i hinside
      split
      · exact yields_pure ⟨by rw [htoken]; rfl, fun _ => hinside⟩
      · exact yields_bind fun _ => yields_pure ⟨by rw [htoken]; rfl, fun _ => hinside⟩
    · intro before after result hrun
      cases hrun
  case h_7 htoken =>
    refine yields_bind fun _ => yields_bind fun _ => ?_
    split
    · exact yields_bind fun _ => yields_pure ⟨by rw [htoken]; rfl, nofun⟩
    · exact yields_pure ⟨by rw [htoken]; rfl, nofun⟩
  case h_11 htoken =>
    split
    · exact yields_pure ⟨by rw [htoken]; rfl, nofun⟩
    · exact yields_bind fun _ => yields_pure ⟨by rw [htoken]; rfl, nofun⟩
  case h_12 hbranch hjump _ _ _ _ _ _ _ _ _ =>
    refine yields_bind fun _ => yields_pure ⟨?_, nofun⟩
    split
    · exact absurd ‹_› (hjump _)
    · exact absurd ‹_› (hbranch _ _)
    · rfl
  case h_3 htoken => exact yields_pure ⟨by rw [htoken]; rfl, nofun⟩
  case h_8 htoken => exact yields_pure ⟨by rw [htoken]; rfl, nofun⟩
  all_goals
    rename_i htoken
    exact yields_bind fun _ => yields_pure ⟨by rw [htoken]; rfl, nofun⟩

end ScriptBytecode
