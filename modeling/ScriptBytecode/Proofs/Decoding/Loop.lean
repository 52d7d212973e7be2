/-
Module: ScriptBytecode.Proofs.Decoding.Loop
Purpose: The loop over the top-level instructions as a relation. It reads instructions until the declared size or the
  end of the bytes is reached, or a read fails, and halts there. Every instruction takes a byte, so the bound on the
  number of rounds is not met; what decoding does is shown by induction over the rounds of this loop.
Main exports: Source.halt, Place.Open, Looping, looping_decode, decode_of_looping, Looping.reaches, Looping.end_eq,
  exists_moves_of_mem_decode
-/
import ScriptBytecode.Body
import ScriptBytecode.Proofs.Decoding.Progress

namespace ScriptBytecode

namespace Source

/-- The place at which `readFrom` stops: the end of the last instruction that it reads. -/
def haltFrom (dialect : Dialect) (declaredSize : Nat) : (bound : Nat) → Place → Place
  | 0, place => place
  | bound + 1, place =>
    if place.position < declaredSize && !place.input.rest.isEmpty then
      match readInstruction dialect maxNesting place with
      | .ok _ next => haltFrom dialect declaredSize bound next
      | .error _ _ => place
    else
      place

/-- The place at which decoding stops. -/
def halt (source : Source) (dialect : Dialect) : Place :=
  haltFrom dialect source.declaredSize source.bytes.length (.start source.bytes)

end Source

/-- The loop goes on from a place: there are bytes left, and the declared size is not reached. -/
structure Place.Open (declaredSize : Nat) (place : Place) : Prop where
  below : place.position < declaredSize
  bytes : place.input.rest ≠ []

theorem open_iff {declaredSize : Nat} {place : Place} :
    (place.position < declaredSize && !place.input.rest.isEmpty) = true ↔ place.Open declaredSize := by
  rw [Bool.and_eq_true, decide_eq_true_eq, Bool.not_eq_true', List.isEmpty_eq_false_iff]
  exact ⟨fun h => ⟨h.1, h.2⟩, fun h => ⟨h.below, h.bytes⟩⟩

/-- What the loop over the instructions does from a place on: what it reads, whether it fails, and where it halts. -/
inductive Looping (dialect : Dialect) (declaredSize : Nat) :
    Place → List Instruction → Option DecodeError → Place → Prop where
  | stop {place : Place} (hstop : ¬place.Open declaredSize) : Looping dialect declaredSize place [] none place
  | fail {place next : Place} {e : DecodeError} (hopen : place.Open declaredSize)
      (hread : readInstruction dialect maxNesting place = .error e next) :
      Looping dialect declaredSize place [] (some e) place
  | step {place next halt : Place} {i : Instruction} {rest : List Instruction} {failure : Option DecodeError}
      (hopen : place.Open declaredSize) (hread : readInstruction dialect maxNesting place = .ok i next)
      (hrest : Looping dialect declaredSize next rest failure halt) :
      Looping dialect declaredSize place (i :: rest) failure halt

/-- With a bound of the number of bytes the loop is this loop. -/
theorem looping_readFrom (dialect : Dialect) (declaredSize : Nat) {bound : Nat} {place : Place}
    (hbound : place.input.rest.length ≤ bound) :
    Looping dialect declaredSize place (Source.readFrom dialect declaredSize bound place).1
      (Source.readFrom dialect declaredSize bound place).2 (Source.haltFrom dialect declaredSize bound place) := by
  induction bound generalizing place with
  | zero => exact .stop fun hopen => hopen.bytes (List.length_eq_zero_iff.1 (Nat.le_zero.1 hbound))
  | succ bound ih =>
      unfold Source.readFrom Source.haltFrom
      split
      case isFalse hstop => exact .stop fun hopen => hstop (open_iff.2 hopen)
      case isTrue hmore =>
          cases hread : readInstruction dialect maxNesting place with
          | error e next => exact .fail (open_iff.1 hmore) hread
          | ok i next =>
              have hfewer := readInstruction_advances hread
              exact .step (open_iff.1 hmore) hread (ih (by omega))

namespace Looping

variable {dialect : Dialect} {declaredSize : Nat} {place halt : Place} {instructions : List Instruction}
  {failure : Option DecodeError}

/-- The loop does one thing only. -/
theorem readFrom_eq (h : Looping dialect declaredSize place instructions failure halt) {bound : Nat}
    (hbound : place.input.rest.length ≤ bound) :
    Source.readFrom dialect declaredSize bound place = (instructions, failure) := by
  induction h generalizing bound with
  | stop hstop =>
      cases bound with
      | zero => rfl
      | succ bound => exact if_neg fun hmore => hstop (open_iff.1 hmore)
  | fail hopen hread =>
      cases bound with
      | zero => exact absurd (List.length_eq_zero_iff.1 (Nat.le_zero.1 hbound)) hopen.bytes
      | succ bound =>
          rw [Source.readFrom, if_pos (open_iff.2 hopen), hread]
  | step hopen hread _ ih =>
      cases bound with
      | zero => exact absurd (List.length_eq_zero_iff.1 (Nat.le_zero.1 hbound)) hopen.bytes
      | succ bound =>
          have hfewer := readInstruction_advances hread
          rw [Source.readFrom, if_pos (open_iff.2 hopen), hread]
          dsimp only
          rw [ih (by omega)]

theorem reaches (h : Looping dialect declaredSize place instructions failure halt) : place.Reaches halt := by
  induction h with
  | stop => exact Place.Reaches.preorderly.refl _
  | fail => exact Place.Reaches.preorderly.refl _
  | step _ hread _ ih => exact Place.Reaches.preorderly.trans (readInstruction_spans hread).reaches ih

/-- The loop halts where the last instruction ends, in both address spaces. -/
theorem end_eq {finish : Instruction → Nat} {address : Place → Nat}
    (hend : ∀ {i place next}, Instruction.Spans i place next → finish i = address next)
    (h : Looping dialect declaredSize place instructions failure halt) :
    address halt = (instructions.getLast?.map finish).getD (address place) := by
  induction h with
  | stop => rfl
  | fail => rfl
  | @step place next halt i rest failure _ hread _ ih =>
      rw [ih, ← hend (readInstruction_spans hread)]
      -- With nothing behind it the end of this instruction is the start of the rest.
      cases rest with
      | nil => rfl
      | cons second rest =>
          rw [List.getLast?_cons_cons, List.getLast?_eq_some_getLast (List.cons_ne_nil _ _)]
          rfl

/-- Every instruction has been read with all levels left, at a place that is related to the one at which the loop starts
    by all that the reads of the format respect. -/
theorem exists_moves {R : Place → Place → Prop} (hR : PrimitiveMoves R dialect.format)
    (h : Looping dialect declaredSize place instructions failure halt) {i : Instruction} (hi : i ∈ instructions) :
    ∃ start stop, R place start ∧ readInstruction dialect maxNesting start = .ok i stop := by
  induction h with
  | stop => cases hi
  | fail => cases hi
  | step _ hread _ ih =>
      rcases List.mem_cons.1 hi with rfl | hi
      · exact ⟨_, _, hR.refl _, hread⟩
      · obtain ⟨start, stop, hstart, hread'⟩ := ih hi
        exact ⟨start, stop, hR.trans ((moves_readInstruction hR maxNesting).of_ok hread) hstart, hread'⟩

end Looping

/-!
### Decoding
-/

/-- Decoding is the loop from the start of the bytes on. -/
theorem looping_decode (source : Source) (dialect : Dialect) :
    Looping dialect source.declaredSize (.start source.bytes) (source.decode dialect).instructions.toList
      (source.decode dialect).failure (source.halt dialect) :=
  looping_readFrom dialect source.declaredSize (Nat.le_refl _)

/-- What the loop does from the start of the bytes on is what is decoded. -/
theorem decode_of_looping (source : Source) {dialect : Dialect} {instructions : List Instruction}
    {failure : Option DecodeError} {halt : Place}
    (h : Looping dialect source.declaredSize (.start source.bytes) instructions failure halt) :
    (source.decode dialect).instructions = instructions.toArray ∧ (source.decode dialect).failure = failure := by
  have hread := h.readFrom_eq (Nat.le_refl _)
  exact ⟨congrArg (·.1.toArray) hread, congrArg (·.2) hread⟩

/-- Every top-level instruction has been read with all levels left, at a place that is related to the start of the bytes
    by all that the reads of the format respect. -/
theorem exists_moves_of_mem_decode {source : Source} {dialect : Dialect} {R : Place → Place → Prop}
    (hR : PrimitiveMoves R dialect.format) {i : Instruction} (hi : i ∈ (source.decode dialect).instructions) :
    ∃ start stop, R (.start source.bytes) start ∧ readInstruction dialect maxNesting start = .ok i stop :=
  (looping_decode source dialect).exists_moves hR (Array.mem_toList_iff.2 hi)

theorem exists_readInstruction_of_mem_decode {source : Source} {dialect : Dialect} {i : Instruction}
    (hi : i ∈ (source.decode dialect).instructions) :
    ∃ start stop, readInstruction dialect maxNesting start = .ok i stop := by
  obtain ⟨start, stop, -, hread⟩ := exists_moves_of_mem_decode (Place.Reaches.primitiveMoves dialect.format) hi
  exact ⟨start, stop, hread⟩

end ScriptBytecode
