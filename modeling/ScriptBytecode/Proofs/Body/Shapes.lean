/-
Module: ScriptBytecode.Proofs.Body.Shapes
Purpose: What the walk asks about the code, apart from its text: which conditional jumps end a `do` loop or guard a
  `while` loop, where the cases of a `switch` lead, and which `return` the compiler has added. Each question is told
  by a few questions to tokens.
Main exports: Token.condTarget?, Token.caseExit?, Token.isBareReturn, Instruction.isDoUntil_eq, Body.isWhileGuard_iff,
  Body.followCases_of_getElem?, Body.Suffices, Body.switchEnd_of_getElem?, Body.isImplicitReturn_of_getElem?
-/
import ScriptBytecode.Geometry
import ScriptBytecode.Proofs.Body.Tiling

namespace ScriptBytecode

namespace Token

/-- Target of a conditional jump. -/
def condTarget? {α : Type} : Token α → Option Nat
  | .jumpIfNot target _ => some target.toNat
  | _ => none

/-- Where a `case` leads: to the next one, or nowhere if it is the `default`. -/
def caseExit? {α : Type} : Token α → Option (Option Nat)
  | .caseLabel target _ => some (if target = defaultCaseTarget then none else some target.toNat)
  | _ => none

/-- The token of a `return`. -/
def isReturn {α : Type} : Token α → Bool
  | .returnValue _ | .returnNothing _ => true
  | _ => false

/-- The token of a `return` without a value. -/
def isBareReturn : Token Instruction → Bool
  | .returnValue value => value.opcode == .nothing
  | .returnNothing _ => true
  | _ => false

/-- Entries of a label table. -/
def labels {α : Type} : Token α → List LabelEntry
  | .labelTable entries => entries
  | _ => []

theorem jumpTarget?_of_condTarget? {α : Type} {token : Token α} {t : Nat} (h : token.condTarget? = some t) :
    token.jumpTarget? = some t := by
  cases token with
  | jumpIfNot target condition => exact h
  | _ => cases h

theorem jumpTarget?_of_caseExit? {α : Type} {token : Token α} {t : Nat} (h : token.caseExit? = some (some t)) :
    token.jumpTarget? = some t := by
  cases token with
  | caseLabel target value => exact Option.some.inj h
  | _ => cases h

end Token

namespace Instruction

variable {i : Instruction}

theorem isDoUntil_eq (i : Instruction) : i.isDoUntil = i.token.condTarget?.any (· ≤ i.position) := by
  unfold isDoUntil
  cases i.token <;> rfl

/-- Only a conditional jump ends a `do` loop. -/
theorem isDoUntil_of_condTarget? (h : i.token.condTarget? = none) : i.isDoUntil = false := by
  rw [isDoUntil_eq, h]
  rfl

theorem isDoUntil_of_jump {target : UInt16} (h : i.token = .jump target) : i.isDoUntil = false :=
  isDoUntil_of_condTarget? (by rw [h]; rfl)

theorem isDoUntil_of_jumpTarget (h : i.jumpTarget? = none) : i.isDoUntil = false := by
  apply isDoUntil_of_condTarget?
  rw [Option.eq_none_iff_forall_ne_some]
  intro t htarget
  cases h.symm.trans (Token.jumpTarget?_of_condTarget? htarget)

end Instruction

namespace Body

variable {body : Body} {i : Instruction} {p : Nat}

/-- A guard of a `while` loop, told by the jump at the end of the loop. -/
theorem isWhileGuard_iff {start stop : Nat} (h : Consecutive start body.instructions.toList stop)
    (guard : Instruction) :
    body.isWhileGuard guard = true ↔
      ∃ t, guard.token.condTarget? = some t ∧ guard.endPosition < t ∧
        ∃ j ∈ body.instructions.toList, j.endPosition = t ∧ j.opcode = .jump ∧ j.jumpTarget? = some guard.position := by
  unfold isWhileGuard
  cases guard.token with
  | jumpIfNot target condition =>
      simp only [Token.condTarget?, Option.some.injEq, exists_eq_left', Bool.and_eq_true, decide_eq_true_eq]
      apply and_congr_right
      intro _
      constructor
      · intro hany
        obtain ⟨j, hj, hshape⟩ := (Option.any_eq_true ..).1 hany
        simp only [Bool.and_eq_true, beq_iff_eq] at hshape
        unfold endingAt? at hj
        obtain ⟨hget, hend⟩ := Option.filter_eq_some_iff.1 hj
        exact ⟨j, Array.mem_toList_iff.2 (Array.mem_of_getElem? hget), by simpa using hend, hshape⟩
      · rintro ⟨j, hj, hend, hshape⟩
        rw [← hend, endingAt?_of_mem h hj]
        simpa using hshape
  | _ => simp [Token.condTarget?]

/-!
### Cases
-/

theorem followCases_of_getElem? {limit bound start : Nat} (hstart : body.indexOf? p = some start)
    (hi : body.instructions.toList[body.skipHidden start]? = some i) :
    body.followCases limit (bound + 1) p =
      match i.token.caseExit? with
      | some none => .reachesDefault (body.skipHidden start)
      | some (some t) => if i.position < t then body.followCases limit bound t else .leavesAt limit
      | none => .leavesAt i.position := by
  rw [Array.getElem?_toList] at hi
  conv_lhs => rw [followCases, hstart]
  simp only [hi]
  cases i.token with
  | caseLabel target value =>
      by_cases hdefault : target = defaultCaseTarget
      · simp [Token.caseExit?, hdefault]
      · simp [Token.caseExit?, hdefault]
  | _ => rfl

/-- The bound on the number of cases is not reached from a position on. -/
def Suffices (body : Body) (bound p : Nat) : Prop :=
  0 < bound ∧ ∀ index, body.indexOf? p = some index → body.instructions.size < index + bound

/-- After a case the bound may be one less. -/
theorem Suffices.next {start stop bound t index : Nat} (h : body.Suffices (bound + 1) p)
    (hbody : Consecutive start body.instructions.toList stop) (hindex : body.indexOf? p = some index)
    {last : Nat} (hle : index ≤ last) (hi : body.instructions.toList[last]? = some i) (hlt : i.position < t) :
    body.Suffices bound t := by
  have hsize := h.2 index hindex
  have hlast : last < body.instructions.size := by
    have hlength := (List.getElem?_eq_some_iff.1 hi).1
    simpa using hlength
  constructor
  · omega
  · intro later hlater
    have hafter := lt_indexOf? hbody hlater hi hlt
    omega

theorem suffices_size (body : Body) (p : Nat) : body.Suffices (body.instructions.size + 1) p :=
  ⟨Nat.succ_pos _, fun _ _ => by omega⟩

theorem firstPlainReturn_cons (limit openUntil : Nat) (i : Instruction) (rest : List Instruction) :
    firstPlainReturn limit openUntil (i :: rest) =
      if i.position < limit then
        match i.token.condTarget? with
        | some t => firstPlainReturn limit (if i.position < t then max openUntil t else openUntil) rest
        | none =>
          if i.token.isReturn && openUntil ≤ i.position then some i.endPosition
          else firstPlainReturn limit openUntil rest
      else none := by
  conv_lhs => rw [firstPlainReturn]
  cases i.token <;> simp [Token.condTarget?, Token.isReturn]

theorem switchEnd_of_getElem? {index limit : Nat} (hi : body.instructions.toList[index]? = some i) :
    body.switchEnd index limit =
      match body.followCases limit (body.instructions.size + 1) i.endPosition with
      | .leavesAt p => min p limit
      | .reachesDefault last =>
        min (((body.nearestBreak (index + 1) last ((body.instructions.toList[last]?.map (·.position)).getD 0)).or
          (firstPlainReturn limit 0 (body.instructions.toList.drop (last + 1)))).getD limit) limit := by
  rw [Array.getElem?_toList] at hi
  cases hcases : body.followCases limit (body.instructions.size + 1) i.endPosition with
  | leavesAt p => simp only [switchEnd, hi, hcases]
  | reachesDefault last => simp only [switchEnd, hi, hcases, Array.getElem?_toList]

theorem isImplicitReturn_of_getElem? {index : Nat} (hi : body.instructions.toList[index]? = some i) :
    body.isImplicitReturn index =
      (i.token.isBareReturn && (body.instructions.toList.drop (index + 1)).all isTail) := by
  rw [Array.getElem?_toList] at hi
  rw [isImplicitReturn, hi, Option.any_some]
  cases i.token <;> rfl

end Body

end ScriptBytecode
