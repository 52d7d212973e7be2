/-
Module: ScriptBytecode.Proofs.Hidden.Landings
Purpose: What decoding guarantees of a body, and where its code leads. Decoding gives instructions the tokens and the
  sizes that the shapes of jumps rely on. Code that leads to starts of instructions and to its end leads to borders:
  no instruction lies across them.
Main exports: Body.Regular, regular_decode, Body.Landing, Body.Landed, Body.Border, Body.Landed.border
-/
import ScriptBytecode.Proofs.Decoding.Conformance
import ScriptBytecode.Proofs.Hidden.Compaction
import ScriptBytecode.Proofs.Walk.Outline
import ScriptBytecode.Proofs.Walk.Rerun

namespace ScriptBytecode

/-!
### What decoding guarantees
-/

theorem Instruction.opcode_of_hidden {i : Instruction} (h : i.isShown = false) : i.opcode = .debugInfo := by
  unfold Instruction.isShown at h
  cases hopcode : i.opcode <;> rw [hopcode] at h <;> first | rfl | cases h

/-- What the shapes of jumps rely on: instructions stand end to end and have tokens of their kinds, jumps have one size,
    and no hidden instruction is as small as the advance of an iterator. -/
structure Body.Regular (body : Body) : Prop where
  tiles : Tiles 0 0 body.instructions.toList
  suits : ∃ format, ∀ i ∈ body.instructions.toList, i.token.Suits format i.opcode
  jumpSize : ∀ i ∈ body.instructions.toList, i.opcode = .jump → i.size = jumpSize
  hiddenSize : ∀ i ∈ body.instructions.toList, i.isShown = false → i.size ≠ iteratorNextSize

theorem Body.Regular.tiled {body : Body} (h : body.Regular) : body.IsTiled := isTiled_of_tiles h.tiles

/-- A plain token leads nowhere. -/
structure Token.Inert {α : Type} (token : Token α) : Prop where
  jumpTarget? : token.jumpTarget? = none
  condTarget? : token.condTarget? = none
  caseExit? : token.caseExit? = none
  isReturn : token.isReturn = false
  labels : token.labels = []

theorem Token.inert_of_isPlain {α : Type} {token : Token α} (h : token.isPlain = true) : token.Inert := by
  cases token with
  | jump | jumpIfNot | filterEditorOnly | switch | caseLabel | iterator | dynArrayIterator | labelTable | returnValue
  | returnNothing => cases h
  | _ => exact ⟨rfl, rfl, rfl, rfl, rfl⟩

namespace Body

variable {body : Body} {i : Instruction} {p : Nat}

/-- Hidden instructions lead nowhere. -/
theorem Regular.inert_of_hidden (h : body.Regular) (hi : i ∈ body.instructions.toList)
    (hhidden : i.isShown = false) : i.token.Inert := by
  obtain ⟨format, hsuits⟩ := h.suits
  have hsuit := hsuits i hi
  rw [Instruction.opcode_of_hidden hhidden] at hsuit
  apply Token.inert_of_isPlain
  cases htoken : i.token with
  | jump | jumpIfNot | filterEditorOnly | switch | caseLabel | iterator | dynArrayIterator | labelTable | returnValue
  | returnNothing => simp [htoken, Token.Suits] at hsuit
  | _ => rfl

/-- An instruction with a target is shown. -/
theorem Regular.isShown_of_jumpTarget? (h : body.Regular) (hi : i ∈ body.instructions.toList)
    (htarget : i.jumpTarget? = some p) : i.isShown = true := by
  cases hshown : i.isShown with
  | true => rfl
  | false =>
      rw [Instruction.jumpTarget?, (h.inert_of_hidden hi hshown).jumpTarget?] at htarget
      cases htarget

/-!
### Places that the code leads to
-/

/-- A position that the code leads to: the target of an instruction, or a label. -/
def Landing (body : Body) (p : Nat) : Prop :=
  ∃ i ∈ body.instructions.toList,
    i.jumpTarget? = some p ∨ ∃ entry ∈ i.token.labels, entry.position.toNat = p

/-- The code leads to starts of instructions and to its end only. -/
def Landed (body : Body) : Prop :=
  ∀ p, body.Landing p → p = body.codeEnd ∨ ∃ i ∈ body.instructions.toList, i.position = p

/-- A position between two instructions, or at an end of the code. -/
structure Border (body : Body) (p : Nat) : Prop where
  edge : body.Edge p
  le : p ≤ body.codeEnd

theorem border_codeEnd (ht : body.IsTiled) : body.Border body.codeEnd :=
  ⟨edge_of_consumed_le ht (Nat.le_max_left _ _), Nat.le_refl _⟩

theorem borders_of_mem (ht : body.IsTiled) (hi : i ∈ body.instructions.toList) :
    body.Border i.position ∧ body.Border i.endPosition := by
  have hbounds := Consecutive.bounds ht hi
  have hend : body.consumed ≤ body.codeEnd := Nat.le_max_left _ _
  exact ⟨⟨(edges_of_mem ht hi).1, by omega⟩, ⟨(edges_of_mem ht hi).2, by omega⟩⟩

/-- The code leads to borders. -/
theorem Landed.border (hl : body.Landed) (ht : body.IsTiled) (hp : body.Landing p) : body.Border p := by
  rcases hl p hp with rfl | ⟨j, hj, rfl⟩
  · exact border_codeEnd ht
  · exact (borders_of_mem ht hj).1

theorem Landed.border_of_target (hl : body.Landed) (ht : body.IsTiled) (hi : i ∈ body.instructions.toList)
    (htarget : i.jumpTarget? = some p) : body.Border p :=
  hl.border ht ⟨i, hi, Or.inl htarget⟩

end Body

end ScriptBytecode
