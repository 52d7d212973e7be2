/-
Module: ScriptBytecode.Proofs.Walk.Outline
Purpose: What a walk sees of the instructions around the one it writes. Plain instructions only add text, so of these it
  sees the range and nothing else. The outline of a body keeps that much; every question about the geometry of jumps has
  the same answer for a body and for its outline, and so has every step of a walk.
Main exports: Opcode.isPlain, Instruction.isPlain, Instruction.outline, Body.outline, Body.switchEnd_outline,
  Body.isImplicitReturn_outline, Setting.outline, Walk.prepare_outline, Walk.step_outline, Walk.finish_outline
-/
import ScriptBytecode.Proofs.Encoding.Pieces
import ScriptBytecode.Proofs.Walk.Labels

namespace ScriptBytecode

/-- Kinds that do nothing but add text. Those that direct control, those that are hidden, and those that may stand
    behind the last statement of a body are not among them. -/
def Opcode.isPlain : Opcode → Bool
  | .jump | .jumpIfNot | .filterEditorOnly | .switch | .caseLabel | .iterator | .dynArrayIterator | .iteratorNext
  | .iteratorPop | .labelTable | .returnValue | .returnNothing | .nothing | .endOfScript => false
  | opcode => !opcode.isHidden

theorem Opcode.isHidden_of_isPlain {opcode : Opcode} (h : opcode.isPlain = true) : opcode.isHidden = false := by
  cases opcode with
  | debugInfo => cases h
  | _ => rfl

/-- Tokens of plain kinds, and those of kinds that share their shape. -/
def Token.isPlain {α : Type} : Token α → Bool
  | .jump _ | .jumpIfNot _ _ | .filterEditorOnly _ | .switch _ _ _ | .caseLabel _ _ | .iterator _ _
  | .dynArrayIterator _ _ _ _ _ | .labelTable _ | .returnValue _ | .returnNothing _ => false
  | _ => true

/-- Plain kinds have plain tokens. -/
theorem Token.Suits.isPlain {α : Type} {format : Format} {opcode : Opcode} {token : Token α}
    (h : token.Suits format opcode) (hplain : opcode.isPlain = true) : token.isPlain = true := by
  cases token with
  | jump | jumpIfNot | filterEditorOnly | iterator | dynArrayIterator | labelTable | returnValue | returnNothing =>
      rw [Token.Suits] at h
      rw [h] at hplain
      cases hplain
  | switch | caseLabel =>
      rw [Token.Suits] at h
      rw [h.1] at hplain
      cases hplain
  | _ => rfl

/-- What stands for nothing has no operands, and neither has what leaves a loop. -/
theorem Token.Suits.eq_noOperands {α : Type} {format : Format} {opcode : Opcode} {token : Token α}
    (h : token.Suits format opcode) (hbare : opcode = .nothing ∨ opcode = .iteratorPop) :
    token = .noOperands := by
  cases token with
  | noOperands => rfl
  | dynArrayMethod array distance args =>
      unfold Token.Suits at h
      split at h <;> grind
  | call target args => cases target <;> grind [Token.Suits, CallTarget.Suits]
  | _ => grind [Token.Suits]

namespace Instruction

/-- An instruction of a plain kind with a token to match. -/
def isPlain (i : Instruction) : Bool := i.opcode.isPlain && i.token.isPlain

/-- A plain instruction of which only the range is known. -/
def blank (position size : Nat) : Instruction where
  code := ⟨0, none⟩
  opcode := .selfObject
  position := position
  size := size
  storagePosition := 0
  storageSize := 0
  token := .noOperands

/-- What is seen of an instruction from elsewhere. Of a plain one it is the range. -/
def outline (i : Instruction) : Instruction := if i.isPlain then blank i.position i.size else i

theorem outline_of_plain {i : Instruction} (h : i.isPlain = true) : i.outline = blank i.position i.size := if_pos h

/-- An instruction is its own outline, or it is plain. -/
theorem outline_cases (i : Instruction) :
    i.outline = i ∨ i.opcode.isPlain = true ∧ i.token.isPlain = true ∧ i.outline = blank i.position i.size := by
  by_cases h : i.isPlain = true
  · have hparts := (Bool.and_eq_true ..).mp h
    exact .inr ⟨hparts.1, hparts.2, outline_of_plain h⟩
  · exact .inl (if_neg h)

@[simp] theorem position_outline (i : Instruction) : i.outline.position = i.position := by
  rcases i.outline_cases with h | ⟨-, -, h⟩ <;> rw [h]
  rfl

@[simp] theorem endPosition_outline (i : Instruction) : i.outline.endPosition = i.endPosition := by
  rcases i.outline_cases with h | ⟨-, -, h⟩ <;> rw [h]
  rfl

/-- A question about the kind that no plain kind says yes to. -/
theorem ask_outline (i : Instruction) (ask : Opcode → Bool)
    (hplain : ∀ opcode : Opcode, opcode.isPlain = true → ask opcode = false) : ask i.outline.opcode = ask i.opcode := by
  rcases i.outline_cases with h | ⟨hopcode, -, h⟩ <;> rw [h]
  rw [hplain _ hopcode]
  exact hplain _ rfl

@[simp] theorem isHidden_outline (i : Instruction) : i.outline.opcode.isHidden = i.opcode.isHidden :=
  i.ask_outline Opcode.isHidden fun _ => Opcode.isHidden_of_isPlain

@[simp] theorem isTail_outline (i : Instruction) : Body.isTail i.outline = Body.isTail i := by
  apply i.ask_outline (fun opcode => opcode.isHidden || opcode == .endOfScript || opcode == .nothing)
  intro opcode hplain
  cases opcode with
  | debugInfo | endOfScript | nothing => cases hplain
  | _ => rfl

@[simp] theorem isJump_outline (i : Instruction) : (i.outline.opcode == .jump) = (i.opcode == .jump) := by
  apply i.ask_outline (· == .jump)
  intro opcode hplain
  cases opcode with
  | jump => cases hplain
  | _ => rfl

@[simp] theorem jumpTarget?_outline (i : Instruction) : i.outline.jumpTarget? = i.jumpTarget? := by
  rcases i.outline_cases with h | ⟨-, htoken, h⟩ <;> rw [h]
  rw [jumpTarget?, jumpTarget?]
  generalize i.token = token at htoken
  cases token with
  | jump | jumpIfNot | filterEditorOnly | caseLabel | iterator | dynArrayIterator => cases htoken
  | _ => rfl

@[simp] theorem isDoUntil_outline (i : Instruction) : i.outline.isDoUntil = i.isDoUntil := by
  rcases i.outline_cases with h | ⟨-, htoken, h⟩ <;> rw [h]
  rw [isDoUntil, isDoUntil]
  generalize i.token = token at htoken
  cases token with
  | jumpIfNot => cases htoken
  | _ => rfl

end Instruction

/-!
### Geometry
-/

namespace Body

/-- The body with nothing but the outlines of its instructions. -/
def outline (body : Body) : Body where
  declaration := ""
  declaredSize := body.declaredSize
  format := ⟨0, 0⟩
  instructions := body.instructions.map (·.outline)
  failure := none

@[simp] theorem size_outline (body : Body) : body.outline.instructions.size = body.instructions.size :=
  Array.size_map

@[simp] theorem getElem?_outline (body : Body) (index : Nat) :
    body.outline.instructions[index]? = body.instructions[index]?.map (·.outline) :=
  Array.getElem?_map

@[simp] theorem toList_outline (body : Body) :
    body.outline.instructions.toList = body.instructions.toList.map (·.outline) :=
  Array.toList_map

theorem codeEnd_outline (body : Body) : body.outline.codeEnd = body.codeEnd := by
  have hconsumed : body.outline.consumed = body.consumed := by
    simp [consumed, outline, Function.comp_def]
  rw [codeEnd, codeEnd, hconsumed]
  rfl

theorem indexOf?_outline (body : Body) (position : Nat) : body.outline.indexOf? position = body.indexOf? position := by
  simp [indexOf?, Option.any_map]

theorem endingAt?_outline (body : Body) (position : Nat) :
    body.outline.endingAt? position = (body.endingAt? position).map (·.outline) := by
  simp [endingAt?, Function.comp_def, Option.filter_map, Option.any_map]

theorem isWhileGuard_outline (body : Body) (guard : Instruction) :
    body.outline.isWhileGuard guard = body.isWhileGuard guard := by
  unfold isWhileGuard
  split
  · simp [endingAt?_outline, Option.any_map]
  · rfl

theorem skipHidden_outline (body : Body) (index : Nat) : body.outline.skipHidden index = body.skipHidden index := by
  fun_induction body.skipHidden index with
  | case1 index hlt hhidden ih =>
      rw [skipHidden, ← ih]
      simp [outline, hlt, hhidden]
  | case2 index hlt hvisible =>
      rw [skipHidden]
      simp [outline, hlt, hvisible]
  | case3 index hge =>
      rw [skipHidden]
      simp [outline, hge]

theorem followCases_outline (body : Body) (limit bound position : Nat) :
    body.outline.followCases limit bound position = body.followCases limit bound position := by
  induction bound generalizing position with
  | zero => rfl
  | succ bound ih =>
      simp only [followCases, indexOf?_outline, skipHidden_outline, getElem?_outline, ih]
      cases body.indexOf? position with
      | none => rfl
      | some start =>
          cases hi : body.instructions[body.skipHidden start]? with
          | none => simp [hi]
          | some i =>
              simp only [hi, Option.map_some]
              rcases i.outline_cases with hsame | ⟨-, htoken, hblank⟩
              · rw [hsame]
              · rw [hblank]
                generalize i.token = token at htoken
                cases token with
                | caseLabel => cases htoken
                | _ => rfl

theorem firstPlainReturn_outline (limit openUntil : Nat) (instructions : List Instruction) :
    firstPlainReturn limit openUntil (instructions.map (·.outline)) =
      firstPlainReturn limit openUntil instructions := by
  induction instructions generalizing openUntil with
  | nil => rfl
  | cons i rest ih =>
      simp only [List.map_cons, firstPlainReturn, ih]
      rcases i.outline_cases with hsame | ⟨-, htoken, hblank⟩
      · rw [hsame]
      · rw [hblank]
        generalize i.token = token at htoken
        cases token with
        | jumpIfNot | returnValue | returnNothing => cases htoken
        | _ => rfl

theorem nearestBreak_outline (body : Body) (first last position : Nat) :
    body.outline.nearestBreak first last position = body.nearestBreak first last position := by
  have hextract : (body.outline.instructions.extract first last).toList =
      (body.instructions.extract first last).toList.map (·.outline) := by
    rw [outline, ← Array.map_extract, Array.toList_map]
  simp only [nearestBreak, hextract, List.filter_map, List.filterMap_map, Function.comp_def,
    Instruction.isJump_outline, Instruction.jumpTarget?_outline]

theorem switchEnd_outline (body : Body) (index limit : Nat) :
    body.outline.switchEnd index limit = body.switchEnd index limit := by
  unfold switchEnd
  rw [getElem?_outline]
  cases body.instructions[index]? with
  | none => rfl
  | some switch =>
      simp [followCases_outline, nearestBreak_outline, ← List.map_drop, firstPlainReturn_outline, Function.comp_def]

theorem isImplicitReturn_outline (body : Body) (index : Nat) :
    body.outline.isImplicitReturn index = body.isImplicitReturn index := by
  unfold isImplicitReturn
  rw [getElem?_outline, toList_outline, ← List.map_drop, List.all_map, Option.any_map]
  congr 1
  funext i
  congr 1
  · rcases i.outline_cases with hsame | ⟨-, htoken, hblank⟩
    · rw [hsame]
    · rw [hblank]
      generalize i.token = token at htoken
      cases token with
      | returnValue | returnNothing => cases htoken
      | _ => rfl
  · simp [Function.comp_def]

end Body

/-!
### Walks
-/

/-- The setting with the outline of its body. -/
def Setting.outline (setting : Setting) : Setting := { setting with body := setting.body.outline }

namespace Walk

theorem registerStates_outline (walk : Walk) (setting : Setting) :
    walk.registerStates setting.outline = walk.registerStates setting := by
  simp only [registerStates, Setting.outline, Body.toList_outline, List.flatMap_map]
  congr 3
  funext i
  rcases i.outline_cases with hsame | ⟨-, htoken, hblank⟩
  · rw [hsame]
  · rw [hblank]
    generalize i.token = token at htoken
    cases token with
    | labelTable => cases htoken
    | _ => rfl

theorem queueDoLoops_outline (walk : Walk) (setting : Setting) :
    walk.queueDoLoops setting.outline = walk.queueDoLoops setting := by
  simp only [queueDoLoops, Setting.outline, Body.toList_outline, List.filter_map, List.foldl_map, Function.comp_def,
    Instruction.isDoUntil_outline, Instruction.jumpTarget?_outline, Instruction.position_outline,
    Instruction.endPosition_outline]

theorem prepare_outline (setting : Setting) (seeds : List Nat) :
    prepare setting.outline seeds = prepare setting seeds := by
  rw [prepare, prepare, registerStates_outline, queueDoLoops_outline]

theorem step_outline (walk : Walk) (setting : Setting) (i : Instruction) (index : Nat) :
    walk.step setting.outline i index = walk.step setting i index := by
  have hperform : ∀ (walk : Walk) statement, walk.perform setting.outline.body index i statement =
      walk.perform setting.body index i statement := by
    intro walk statement
    cases statement with
    | branch target condition =>
        simp only [perform, branch, Setting.outline, Body.isWhileGuard_outline]
    | switch value =>
        simp only [perform, switch, Setting.outline, Body.switchEnd_outline, Body.codeEnd_outline]
    | _ => rfl
  unfold step write
  simp only [hperform]
  simp only [Setting.outline, Body.isImplicitReturn_outline]

theorem finish_outline (walk : Walk) (setting : Setting) : walk.finish setting.outline = walk.finish setting := by
  simp only [finish, writeLastLabels, Setting.outline, Body.codeEnd_outline]

end Walk

end ScriptBytecode
