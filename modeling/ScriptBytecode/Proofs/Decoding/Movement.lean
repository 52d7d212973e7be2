/-
Module: ScriptBytecode.Proofs.Decoding.Movement
Purpose: Where readers and decoders stop. A preorder on places that every primitive read respects is respected by the
  decoder of whole instructions, on success and on failure alike. The induction over levels, layouts and operand
  lists is made here once; what is known about the place after a read comes from the primitives.
Main exports: stopOf, Moves, Preorderly, PrimitiveMoves, moves_readInstruction
-/
import ScriptBytecode.Decoder

namespace ScriptBytecode

variable {ε σ α β : Type}

/-- The state in which a computation stops, whether it gives a value or fails. -/
def stopOf (m : EStateM ε σ α) (state : σ) : σ :=
  match m state with
  | .ok _ next => next
  | .error _ next => next

/-- From every state the computation stops in a state that is related to it. -/
def Moves (R : σ → σ → Prop) (m : EStateM ε σ α) : Prop :=
  ∀ state, R state (stopOf m state)

theorem stopOf_of_ok {m : EStateM ε σ α} {state next : σ} {value : α}
    (h : m state = .ok value next) : stopOf m state = next := by
  simp [stopOf, h]

/-- A computation that succeeds gives its value in a related state. -/
theorem Moves.of_ok {R : σ → σ → Prop} {m : EStateM ε σ α} (hm : Moves R m) {state next : σ} {value : α}
    (h : m state = .ok value next) : R state next :=
  stopOf_of_ok h ▸ hm state

theorem stopOf_of_error {m : EStateM ε σ α} {state next : σ} {e : ε}
    (h : m state = .error e next) : stopOf m state = next := by
  simp [stopOf, h]

/-- One computation after another, by the outcome of the first. -/
theorem bind_apply (m : EStateM ε σ α) (rest : α → EStateM ε σ β) (state : σ) :
    (m >>= rest) state =
      match m state with
      | .ok value next => rest value next
      | .error e next => .error e next := by
  show EStateM.bind m rest state = _
  unfold EStateM.bind
  cases m state <;> rfl

/-- A sequence that succeeds has a first part that succeeds, and a second part that goes on from there. -/
theorem bind_eq_ok {m : EStateM ε σ α} {rest : α → EStateM ε σ β} {state next : σ} {value : β}
    (h : (m >>= rest) state = .ok value next) :
    ∃ first middle, m state = .ok first middle ∧ rest first middle = .ok value next := by
  rw [bind_apply] at h
  cases hm : m state with
  | ok first middle =>
      rw [hm] at h
      exact ⟨first, middle, rfl, h⟩
  | error e middle =>
      rw [hm] at h
      cases h

/-- A sequence succeeds if its parts do. -/
theorem bind_of_ok {m : EStateM ε σ α} {rest : α → EStateM ε σ β} {state middle next : σ} {first : α}
    {value : β} (hm : m state = .ok first middle) (hrest : rest first middle = .ok value next) :
    (m >>= rest) state = .ok value next := by
  rw [bind_apply, hm]
  exact hrest

/-!
### Preorders

Sequences respect a relation that is reflexive and transitive if their parts do. A failure of the first part ends a
sequence, so the sequence stops where the first part does.
-/

/-- The relation is reflexive and transitive. -/
structure Preorderly (R : σ → σ → Prop) : Prop where
  refl : ∀ state, R state state
  trans : ∀ {a b c}, R a b → R b c → R a c

namespace Preorderly

variable {R : σ → σ → Prop}

theorem pure (hR : Preorderly R) (value : α) : Moves R (Pure.pure value : EStateM ε σ α) :=
  hR.refl

theorem get (hR : Preorderly R) : Moves R (MonadState.get : EStateM ε σ σ) :=
  hR.refl

theorem throw (hR : Preorderly R) (e : ε) : Moves R (MonadExcept.throw e : EStateM ε σ α) :=
  hR.refl

theorem bind (hR : Preorderly R) {m : EStateM ε σ α} {rest : α → EStateM ε σ β}
    (hm : Moves R m) (hrest : ∀ value, Moves R (rest value)) : Moves R (m >>= rest) := by
  intro state
  have first := hm state
  unfold stopOf
  rw [bind_apply]
  cases h : m state with
  | ok value middle =>
      rw [stopOf_of_ok h] at first
      exact hR.trans first (hrest value middle)
  | error e middle =>
      rw [stopOf_of_error h] at first
      exact first

end Preorderly

/-- A preorder on places that the primitive reads of a format respect. -/
structure PrimitiveMoves (R : Place → Place → Prop) (format : Format) : Prop extends
    Preorderly R where
  byte : Moves R (Decoder.plain Reader.byte 1)
  word : Moves R (Decoder.plain Reader.word 2)
  dword : Moves R (Decoder.plain Reader.dword 4)
  int : Moves R (Decoder.plain Reader.int 4)
  single : Moves R (Decoder.plain Reader.single 4)
  ansiString : Moves R (Decoder.lift Reader.ansiString (·.2))
  wideString : Moves R (Decoder.lift Reader.wideString (·.2))
  name : Moves R (Decoder.name format)
  object : Moves R (Decoder.object format)

namespace PrimitiveMoves

variable {R : Place → Place → Prop} {format : Format} {dialect : Dialect}
  {instruction : Decoder Instruction}

theorem code (hR : PrimitiveMoves R format) : Moves R Decoder.code := by
  refine hR.bind hR.byte fun first => ?_
  split
  · exact hR.bind hR.byte fun _ => hR.pure _
  · exact hR.pure _

theorem collectWithin (hR : PrimitiveMoves R format) {step : Decoder (Option α)}
    (hstep : Moves R step) : ∀ bound, Moves R (Decoder.collectWithin step bound)
  | 0 => hR.refl
  | bound + 1 => by
      refine hR.bind hstep fun given => ?_
      cases given with
      | none => exact hR.pure _
      | some value => exact hR.bind (collectWithin hR hstep bound) fun _ => hR.pure _

theorem collect (hR : PrimitiveMoves R format) {step : Decoder (Option α)}
    (hstep : Moves R step) : Moves R (Decoder.collect step) :=
  fun place => hR.collectWithin hstep _ place

theorem peek (hR : PrimitiveMoves R format) : Moves R (Decoder.peek dialect) :=
  hR.bind hR.get fun _ => hR.pure _

theorem operand (hR : PrimitiveMoves R format) (hi : Moves R instruction) :
    Moves R (Decoder.operand dialect instruction) := by
  refine hR.bind (hR.collect (hR.bind hR.peek fun next => ?_)) fun _ => hi
  split
  · exact hR.bind hi fun _ => hR.pure _
  · exact hR.pure _

theorem operandsUntil (hR : PrimitiveMoves R format) (hi : Moves R instruction)
    (terminator : Opcode) : Moves R (Decoder.operandsUntil dialect instruction terminator) :=
  hR.collect (hR.bind (hR.operand hi) fun _ => hR.pure _)

theorem optionalTerminator (hR : PrimitiveMoves R format) (hi : Moves R instruction) :
    Moves R (Decoder.optionalTerminator dialect instruction) := by
  refine hR.bind hR.peek fun next => ?_
  split
  · exact hR.bind hi fun _ => hR.pure _
  · exact hR.pure _

theorem labels (hR : PrimitiveMoves R dialect.format) : Moves R (Decoder.labels dialect) :=
  hR.collect (hR.bind hR.name fun _ => hR.bind hR.dword fun _ => hR.pure _)

/-- Every field moves as the primitives do, if nested instructions do. -/
theorem field (hR : PrimitiveMoves R dialect.format) (hi : Moves R instruction) (field : Field) :
    Moves R (field.read dialect instruction) := by
  cases field with
  | byte => exact hR.byte
  | word => exact hR.word
  | int => exact hR.int
  | single => exact hR.single
  | ansiString => exact hR.bind hR.ansiString fun _ => hR.pure _
  | wideString => exact hR.bind hR.wideString fun _ => hR.pure _
  | name => exact hR.name
  | object => exact hR.object
  | operand => exact hR.operand hi
  | operandsUntil terminator => exact hR.operandsUntil hi terminator
  | labels => exact hR.labels
  | optionalTerminator => exact hR.optionalTerminator hi

theorem layout (hR : PrimitiveMoves R dialect.format) (hi : Moves R instruction)
    (layout : Layout α) : Moves R (layout.decode dialect instruction) := by
  induction layout with
  | done value => exact hR.pure value
  | read field next ih => exact hR.bind (hR.field hi field) ih

end PrimitiveMoves

/-- Reading a whole instruction moves as the primitives do. The induction is on the levels left: operands are read
    with one level less. -/
theorem moves_readInstruction {R : Place → Place → Prop} {dialect : Dialect}
    (hR : PrimitiveMoves R dialect.format) : ∀ levels, Moves R (readInstruction dialect levels)
  | 0 => hR.refl
  | levels + 1 =>
      hR.bind hR.get fun _ => hR.bind hR.code fun _ =>
        hR.bind (hR.layout (moves_readInstruction hR levels) _) fun _ =>
          hR.bind hR.get fun _ => hR.pure _

end ScriptBytecode
