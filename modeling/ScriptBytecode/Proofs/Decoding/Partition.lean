/-
Module: ScriptBytecode.Proofs.Decoding.Partition
Purpose: The top-level instructions of a decoded body partition its range in both address spaces. Each starts where
  the one before it ends, and decoding stops at the declared size, at the end of the bytes or at a failure and nowhere
  else.
Main exports: Tiles, Body.endPosition_le_codeEnd, decode_tiles, Source.Partitioned, decode_partitions,
  Body.isTiled_decode
-/
import Mathlib.Algebra.Ring.Nat
import ScriptBytecode.Proofs.Body.Tiling
import ScriptBytecode.Proofs.Decoding.Loop

namespace ScriptBytecode

/-- The instructions follow each other without gap or overlap from a logical position and a storage offset on. -/
def Tiles : (position offset : Nat) → List Instruction → Prop
  | _, _, [] => True
  | position, offset, i :: rest =>
    i.position = position ∧ i.storagePosition = offset ∧ 1 ≤ i.size ∧ 1 ≤ i.storageSize ∧
      Tiles i.endPosition i.storageEnd rest

namespace Tiles

variable {position offset : Nat} {instructions : List Instruction}

/-- Neighbours in a tiling touch. -/
theorem adjacent (h : Tiles position offset instructions) {k : Nat} {i j : Instruction}
    (hi : instructions[k]? = some i) (hj : instructions[k + 1]? = some j) :
    i.endPosition = j.position ∧ i.storageEnd = j.storagePosition := by
  induction instructions generalizing position offset k with
  | nil => simp at hi
  | cons first rest ih =>
      obtain ⟨-, -, -, -, hrest⟩ := h
      cases k with
      | zero =>
          cases rest with
          | nil => simp at hj
          | cons second rest =>
              simp only [List.getElem?_cons_zero, List.getElem?_cons_succ, Option.some.injEq] at hi hj
              subst hi hj
              exact ⟨hrest.1.symm, hrest.2.1.symm⟩
      | succ k => exact ih hrest hi hj

/-- No instruction of a tiling is empty. -/
theorem nonempty (h : Tiles position offset instructions) {i : Instruction}
    (hi : i ∈ instructions) : 1 ≤ i.size ∧ 1 ≤ i.storageSize := by
  induction instructions generalizing position offset with
  | nil => cases hi
  | cons first rest ih =>
      obtain ⟨-, -, hsize, hstorage, hrest⟩ := h
      rcases List.mem_cons.1 hi with rfl | hi
      · exact ⟨hsize, hstorage⟩
      · exact ih hrest hi

/-- No instruction of a tiling stands before its start. -/
theorem start_le (h : Tiles position offset instructions) {i : Instruction} (hi : i ∈ instructions) :
    position ≤ i.position := by
  induction instructions generalizing position offset with
  | nil => cases hi
  | cons first rest ih =>
      obtain ⟨rfl, -, -, -, hrest⟩ := h
      rcases List.mem_cons.1 hi with rfl | hi
      · exact Nat.le_refl _
      · exact Nat.le_trans (Nat.le_add_right _ _) (ih hrest hi)

/-- Instructions of a tiling stand in the order of their positions, each at its end or past it. -/
theorem ordered (h : Tiles position offset instructions) :
    instructions.Pairwise fun i j => i.endPosition ≤ j.position := by
  induction instructions generalizing position offset with
  | nil => exact List.Pairwise.nil
  | cons first rest ih =>
      obtain ⟨-, -, -, -, hrest⟩ := h
      exact List.pairwise_cons.2 ⟨fun i hi => hrest.start_le hi, ih hrest⟩

/-- No two instructions of a tiling stand at one position. -/
theorem eq_of_position (h : Tiles position offset instructions) {i j : Instruction} (hi : i ∈ instructions)
    (hj : j ∈ instructions) (hsame : i.position = j.position) : i = j := by
  obtain ⟨k, hk, rfl⟩ := List.getElem_of_mem hi
  obtain ⟨l, hl, rfl⟩ := List.getElem_of_mem hj
  have hbefore := List.pairwise_iff_getElem.1 h.ordered
  have hsize := (h.nonempty hi).1
  have hsize' := (h.nonempty hj).1
  unfold Instruction.endPosition at hbefore
  rcases Nat.lt_trichotomy k l with hlt | rfl | hgt
  · have := hbefore k l hk hl hlt
    omega
  · rfl
  · have := hbefore l k hl hk hgt
    omega

/-- The first instructions of a tiling. -/
theorem take (h : Tiles position offset instructions) (count : Nat) :
    Tiles position offset (instructions.take count) := by
  induction instructions generalizing position offset count with
  | nil => rwa [List.take_nil]
  | cons first rest ih =>
      obtain ⟨hposition, hoffset, hsize, hstorage, hrest⟩ := h
      cases count with
      | zero => exact trivial
      | succ count => exact ⟨hposition, hoffset, hsize, hstorage, ih hrest count⟩

/-- The sizes of a tiling add up to the distance from its start to its end. -/
theorem sum_size (h : Tiles position offset instructions) :
    (instructions.getLast?.map (·.endPosition)).getD position =
      position + (instructions.map (·.size)).sum := by
  induction instructions generalizing position offset with
  | nil => rfl
  | cons first rest ih =>
      obtain ⟨rfl, -, -, -, hrest⟩ := h
      have htail := ih hrest
      cases rest with
      | nil => simp [Instruction.endPosition]
      | cons second rest =>
          rw [List.getLast?_cons_cons, List.map_cons, List.sum_cons, ← Nat.add_assoc]
          rw [List.getLast?_eq_some_getLast (List.cons_ne_nil _ _)] at htail ⊢
          exact htail

end Tiles

/-- Where instructions end in their order, each ends before the end of the code. -/
theorem Body.endPosition_le_codeEnd {body : Body}
    (h : body.instructions.toList.Pairwise fun i j => i.endPosition ≤ j.endPosition) {i : Instruction}
    (hi : i ∈ body.instructions.toList) : i.endPosition ≤ body.codeEnd := by
  obtain ⟨before, after, hsplit⟩ := List.append_of_mem hi
  have hback : body.instructions.back? = body.instructions.toList.getLast? := by simp
  apply Nat.le_trans _ (Nat.le_max_left _ _)
  unfold Body.consumed
  rw [hsplit] at h
  rw [hback, hsplit]
  cases hlast : after.getLast? with
  | none =>
      rw [List.getLast?_eq_none_iff.1 hlast]
      simp
  | some last =>
      have hmem : last ∈ after := List.mem_of_getLast? hlast
      have hgetLast : (before ++ i :: after).getLast? = some last := by
        simp [List.getLast?_append, List.getLast?_cons, hlast]
      rw [hgetLast]
      exact (List.pairwise_cons.1 (List.pairwise_append.1 h).2.1).1 last hmem

namespace Looping

variable {dialect : Dialect} {declaredSize : Nat} {place halt : Place} {instructions : List Instruction}
  {failure : Option DecodeError} (h : Looping dialect declaredSize place instructions failure halt)

include h

/-- The instructions follow each other from the place on that the loop starts from. -/
theorem tiles : Tiles place.position place.input.offset instructions := by
  induction h with
  | stop => exact trivial
  | fail => exact trivial
  | step _ hread _ ih =>
      have hspans := readInstruction_spans hread
      refine ⟨hspans.position, hspans.storagePosition, hspans.size_pos, hspans.storageSize_pos, ?_⟩
      rw [hspans.endPosition, hspans.storageEnd]
      exact ih

/-- No instruction reaches past the bytes. -/
theorem storageEnd_le : ∀ i ∈ instructions, i.storageEnd ≤ place.input.offset + place.input.rest.length := by
  induction h with
  | stop => exact List.forall_mem_nil _
  | fail => exact List.forall_mem_nil _
  | step _ hread _ ih =>
      have hspans := readInstruction_spans hread
      have hlength := hspans.reaches.input.offset_add_length
      refine List.forall_mem_cons.2 ⟨?_, fun i hi => ?_⟩
      · rw [hspans.storageEnd]
        omega
      · have := ih i hi
        omega

/-- The size is not reached before the last instruction. -/
theorem endPosition_lt : ∀ i ∈ instructions.dropLast, i.endPosition < declaredSize := by
  induction h with
  | stop => exact List.forall_mem_nil _
  | fail => exact List.forall_mem_nil _
  | step _ hread hrest ih =>
      cases hrest with
      | stop => exact List.forall_mem_nil _
      | fail => exact List.forall_mem_nil _
      | step hopen _ _ =>
          rw [List.dropLast_cons_cons]
          refine List.forall_mem_cons.2 ⟨?_, ih⟩
          rw [(readInstruction_spans hread).endPosition]
          exact hopen.below

/-- Without a failure the loop halts at the size or at the end of the bytes. -/
theorem complete (hnone : failure = none) :
    declaredSize ≤ (instructions.getLast?.map (·.endPosition)).getD place.position ∨
      (instructions.getLast?.map (·.storageEnd)).getD place.input.offset =
        place.input.offset + place.input.rest.length := by
  have hlength := h.reaches.input.offset_add_length
  rw [← h.end_eq fun hspans => hspans.endPosition, ← h.end_eq fun hspans => hspans.storageEnd]
  have hclosed : ¬halt.Open declaredSize := by
    induction h with
    | stop hstop => exact hstop
    | fail => cases hnone
    | step _ _ hrest ih => exact ih hnone hrest.reaches.input.offset_add_length
  rcases Nat.lt_or_ge halt.position declaredSize with hbelow | hreached
  · have hempty : halt.input.rest = [] := by
      by_contra hbytes
      exact hclosed ⟨hbelow, hbytes⟩
    rw [hempty, List.length_nil] at hlength
    exact Or.inr hlength
  · exact Or.inl hreached

end Looping

/-- The instructions of a decoded body tile its range. -/
theorem decode_tiles (source : Source) (dialect : Dialect) :
    Tiles 0 0 (source.decode dialect).instructions.toList :=
  (looping_decode source dialect).tiles

/-- What it means that a decoded body partitions the range of its source. -/
structure Source.Partitioned (source : Source) (body : Body) : Prop where
  /-- The first instruction starts at the start of both address spaces. -/
  first : ∀ i, body.instructions[0]? = some i → i.position = 0 ∧ i.storagePosition = 0
  /-- Each instruction starts where the one before it ends. -/
  adjacent : ∀ k i j, body.instructions[k]? = some i → body.instructions[k + 1]? = some j →
    i.position + i.size = j.position ∧ i.storagePosition + i.storageSize = j.storagePosition
  /-- No instruction is empty. -/
  nonempty : ∀ i ∈ body.instructions, 1 ≤ i.size ∧ 1 ≤ i.storageSize
  /-- No instruction reaches past the bytes. -/
  within : ∀ i ∈ body.instructions, i.storagePosition + i.storageSize ≤ source.bytes.length
  /-- The size that was decoded is the sum of the sizes. -/
  consumed : body.consumed = (body.instructions.toList.map (·.size)).sum
  /-- Only the last instruction may reach the declared size. -/
  below : ∀ k i, body.instructions[k]? = some i → k + 1 < body.instructions.size →
    i.position + i.size < source.declaredSize
  /-- Without a failure the declared size is reached, or the bytes are used up by the last instruction. -/
  complete : body.failure = none →
    source.declaredSize ≤ body.consumed ∨
    (body.instructions.back?.map fun i => i.storagePosition + i.storageSize).getD 0 =
      source.bytes.length

/-- Decoding partitions the range of every source, whatever its bytes, its declared size and the dialect. -/
theorem decode_partitions (source : Source) (dialect : Dialect) :
    source.Partitioned (source.decode dialect) := by
  have hlooping := looping_decode source dialect
  have htiles := hlooping.tiles
  have hlast : (source.decode dialect).consumed =
      ((source.decode dialect).instructions.toList.getLast?.map (·.endPosition)).getD 0 := by
    rw [Body.consumed, Array.getLast?_toList]
  refine ⟨?_, ?_, ?_, ?_, ?_, ?_, ?_⟩
  · intro i hi
    rw [← Array.getElem?_toList] at hi
    cases hlist : (source.decode dialect).instructions.toList with
    | nil => simp [hlist] at hi
    | cons first rest =>
        rw [hlist] at hi htiles
        cases hi
        exact ⟨htiles.1, htiles.2.1⟩
  · intro k i j hi hj
    rw [← Array.getElem?_toList] at hi hj
    exact htiles.adjacent hi hj
  · intro i hi
    exact htiles.nonempty (Array.mem_toList_iff.2 hi)
  · intro i hi
    have hend := hlooping.storageEnd_le i (Array.mem_toList_iff.2 hi)
    simpa [Place.start, Input.ofBytes, Instruction.storageEnd] using hend
  · rw [hlast]
    simpa [Place.start] using htiles.sum_size
  · intro k i hi hk
    rw [← Array.getElem?_toList] at hi
    refine hlooping.endPosition_lt i (List.mem_of_getElem? (i := k) ?_)
    rw [List.getElem?_dropLast, if_pos (by rw [Array.length_toList]; omega), hi]
  · intro hnone
    rw [hlast, ← Array.getLast?_toList]
    simpa [Place.start, Input.ofBytes, Instruction.storageEnd] using hlooping.complete hnone

/-!
### Decoded instructions stand end to end
-/

/-- Instructions that tile the code stand end to end. -/
theorem Tiles.consecutive {position offset : Nat} {is : List Instruction} (h : Tiles position offset is) :
    Consecutive position is ((is.getLast?.map (·.endPosition)).getD position) := by
  have hrun : ∃ stop, Consecutive position is stop := by
    induction is generalizing position offset with
    | nil => exact ⟨position, rfl⟩
    | cons i rest ih =>
        obtain ⟨rfl, -, hsize, -, hrest⟩ := h
        obtain ⟨stop, hstop⟩ := ih hrest
        exact ⟨stop, rfl, hsize, hstop⟩
  obtain ⟨stop, hstop⟩ := hrun
  rwa [hstop.cursor_eq]

theorem Body.isTiled_of_tiles {body : Body} (h : Tiles 0 0 body.instructions.toList) : body.IsTiled := by
  have hall := h.consecutive
  rwa [Array.getLast?_toList] at hall

theorem Body.isTiled_decode (source : Source) (dialect : Dialect) : (source.decode dialect).IsTiled :=
  isTiled_of_tiles (decode_tiles source dialect)

end ScriptBytecode
