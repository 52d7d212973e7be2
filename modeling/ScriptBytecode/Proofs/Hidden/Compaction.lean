/-
Module: ScriptBytecode.Proofs.Hidden.Compaction
Purpose: Code from which the hidden instructions are taken out. Every position moves back by the sizes of the hidden
  instructions before it, so that the shown instructions stand end to end again. The move keeps the order of
  positions, and it keeps apart what a shown instruction lies between; two edges that only hidden instructions lie
  between fall together.
Main exports: Body.shown, Body.compact, Body.Edge, Body.StripsTo, Body.Edge.le_position_iff,
  Body.StripsTo.consecutive, Body.rank, Body.StripsTo.getElem?
-/
import Mathlib.Data.List.Forall2
import ScriptBytecode.Proofs.Decoding.Partition
import ScriptBytecode.Proofs.Hidden.Addresses

namespace ScriptBytecode

/-- Logical size of the shown instructions that end at or before a position. -/
def shownSize (is : List Instruction) (position : Nat) : Nat :=
  ((is.filter fun i => i.isShown && i.endPosition ≤ position).map (·.size)).sum

section

variable {start stop position : Nat} {is : List Instruction}

theorem shownSize_append (is js : List Instruction) (position : Nat) :
    shownSize (is ++ js) position = shownSize is position + shownSize js position := by
  simp [shownSize]

theorem shownSize_cons (i : Instruction) (rest : List Instruction) (position : Nat) :
    shownSize (i :: rest) position =
      (if i.isShown && i.endPosition ≤ position then i.size else 0) + shownSize rest position := by
  unfold shownSize
  rw [List.filter_cons]
  split <;> simp

theorem shownSize_mono (is : List Instruction) {position later : Nat} (h : position ≤ later) :
    shownSize is position ≤ shownSize is later := by
  induction is with
  | nil => exact Nat.le_refl _
  | cons i rest ih =>
      rw [shownSize_cons, shownSize_cons]
      apply Nat.add_le_add _ ih
      split
      · rename_i hcounted
        simp only [Bool.and_eq_true, decide_eq_true_eq] at hcounted
        rw [if_pos (by simp [hcounted.1, Nat.le_trans hcounted.2 h])]
      · exact Nat.zero_le _

/-- Instructions behind a position do not count before it. -/
theorem Consecutive.shownSize_of_le (h : Consecutive start is stop) (hle : position ≤ start) :
    shownSize is position = 0 := by
  induction is generalizing start with
  | nil => rfl
  | cons i rest ih =>
      obtain ⟨rfl, hsize, hrest⟩ := h
      have hlate : ¬ i.endPosition ≤ position := by
        unfold Instruction.endPosition
        omega
      rw [shownSize_cons, ih hrest (by unfold Instruction.endPosition; omega), if_neg (by simp [hlate])]

/-- All shown instructions count at the end of the code. -/
theorem Consecutive.shownSize_of_ge (h : Consecutive start is stop) (hle : stop ≤ position) :
    shownSize is position = shownSize is stop := by
  have hcounted : is.filter (fun i => i.isShown && i.endPosition ≤ position) =
      is.filter fun i => i.isShown && i.endPosition ≤ stop := by
    apply List.filter_congr
    intro i hi
    have hbounds := (h.bounds hi).2.2
    rw [decide_eq_true (Nat.le_trans hbounds hle), decide_eq_true hbounds]
  unfold shownSize
  rw [hcounted]

theorem Consecutive.add_shownSize_le (h : Consecutive start is stop) (hle : start ≤ position) :
    start + shownSize is position ≤ position := by
  induction is generalizing start with
  | nil => exact hle
  | cons i rest ih =>
      obtain ⟨rfl, hsize, hrest⟩ := h
      rw [shownSize_cons]
      by_cases hend : i.endPosition ≤ position
      · have hrest := ih hrest hend
        have hstep : (if i.isShown && i.endPosition ≤ position then i.size else 0) ≤ i.size := by
          split <;> omega
        unfold Instruction.endPosition at hrest
        omega
      · rw [hrest.shownSize_of_le (by omega), if_neg (by simp [hend])]
        exact hle

end

namespace Body

/-- The instructions that are not hidden. -/
def shown (body : Body) : List Instruction := body.instructions.toList.filter (·.isShown)

/-- Where a position comes to stand once the hidden instructions are gone: behind the shown instructions before it, and
    as far past the end as before. -/
def compact (body : Body) (position : Nat) : Nat :=
  shownSize body.instructions.toList position + (position - body.consumed)

/-- No instruction lies across the position. -/
def Edge (body : Body) (position : Nat) : Prop :=
  ∀ i ∈ body.instructions.toList, position ≤ i.position ∨ i.endPosition ≤ position

variable {body : Body} {i : Instruction} {p q : Nat}

theorem compact_mono (body : Body) : Monotone body.compact := fun _ _ h =>
  Nat.add_le_add (shownSize_mono _ h) (Nat.sub_le_sub_right h _)

theorem edge_min (hp : body.Edge p) (hq : body.Edge q) : body.Edge (min p q) := by
  rcases Nat.le_total p q with h | h
  · rwa [Nat.min_eq_left h]
  · rwa [Nat.min_eq_right h]

theorem edge_max (hp : body.Edge p) (hq : body.Edge q) : body.Edge (max p q) := by
  rcases Nat.le_total p q with h | h
  · rwa [Nat.max_eq_right h]
  · rwa [Nat.max_eq_left h]

theorem edge_zero (body : Body) : body.Edge 0 := fun _ _ => Or.inl (Nat.zero_le _)

section

variable (h : body.IsTiled)

include h

theorem compact_of_consumed_le (hle : body.consumed ≤ p) :
    body.compact p = body.compact body.consumed + (p - body.consumed) := by
  rw [compact, compact, Consecutive.shownSize_of_ge h hle, Nat.sub_self, Nat.add_zero]

theorem compact_le (p : Nat) : body.compact p ≤ p := by
  rcases Nat.le_total p body.consumed with hle | hle
  · have hadd := Consecutive.add_shownSize_le h (Nat.zero_le p)
    rw [compact, Nat.sub_eq_zero_of_le hle]
    omega
  · have hadd := Consecutive.add_shownSize_le h (Nat.zero_le body.consumed)
    rw [compact_of_consumed_le h hle, compact, Nat.sub_self]
    omega

theorem edge_of_consumed_le (hle : body.consumed ≤ p) : body.Edge p :=
  fun _ hj => Or.inr (Nat.le_trans (Consecutive.bounds h hj).2.2 hle)

/-- The edges of an instruction. -/
theorem edges_of_mem (hi : i ∈ body.instructions.toList) : body.Edge i.position ∧ body.Edge i.endPosition := by
  obtain ⟨before, after, hsplit⟩ := List.append_of_mem hi
  unfold IsTiled at h
  unfold Edge
  rw [hsplit] at h ⊢
  obtain ⟨middle, hbefore⟩ := h.exists_middle
  obtain ⟨rfl, hsize, hafter⟩ := h.drop_left hbefore
  constructor
  · intro j hj
    rcases List.mem_append.1 hj with hj | hj
    · exact Or.inr (hbefore.bounds hj).2.2
    · rcases List.mem_cons.1 hj with rfl | hj
      · exact Or.inl (Nat.le_refl _)
      · have hbound := (hafter.bounds hj).1
        unfold Instruction.endPosition at hbound
        exact Or.inl (by omega)
  · intro j hj
    rcases List.mem_append.1 hj with hj | hj
    · have hbound := (hbefore.bounds hj).2.2
      unfold Instruction.endPosition at hbound ⊢
      exact Or.inr (by omega)
    · rcases List.mem_cons.1 hj with rfl | hj
      · exact Or.inr (Nat.le_refl _)
      · exact Or.inl (hafter.bounds hj).1

/-- The end of an instruction stands behind the instruction, or with its start if it is hidden. -/
theorem compact_endPosition (hi : i ∈ body.instructions.toList) :
    body.compact i.endPosition = body.compact i.position + if i.isShown then i.size else 0 := by
  have hbounds := (Consecutive.bounds h hi).2.2
  have hstart : i.position ≤ i.endPosition := Nat.le_add_right _ _
  obtain ⟨before, after, hsplit⟩ := List.append_of_mem hi
  unfold IsTiled at h
  rw [hsplit] at h
  obtain ⟨middle, hbefore⟩ := h.exists_middle
  obtain ⟨rfl, hsize, hafter⟩ := h.drop_left hbefore
  have hnot : ¬ i.endPosition ≤ i.position := by
    unfold Instruction.endPosition
    omega
  rw [compact, compact, Nat.sub_eq_zero_of_le hbounds, Nat.sub_eq_zero_of_le (Nat.le_trans hstart hbounds), hsplit,
    shownSize_append, shownSize_append, shownSize_cons, shownSize_cons, hafter.shownSize_of_le (Nat.le_refl _),
    hafter.shownSize_of_le hstart, hbefore.shownSize_of_ge hstart]
  simp [hnot]

theorem compact_endPosition_of_shown (hi : i ∈ body.instructions.toList) (hshown : i.isShown = true) :
    body.compact i.endPosition = body.compact i.position + i.size := by
  rw [compact_endPosition h hi, if_pos hshown]

theorem compact_endPosition_of_hidden (hi : i ∈ body.instructions.toList) (hhidden : i.isShown = false) :
    body.compact i.endPosition = body.compact i.position := by
  rw [compact_endPosition h hi, hhidden]
  rfl

theorem compact_position_lt (hi : i ∈ body.instructions.toList) (hshown : i.isShown = true) :
    body.compact i.position < body.compact i.endPosition := by
  have hend := compact_endPosition_of_shown h hi hshown
  have hlt := (Consecutive.bounds h hi).2.1
  unfold Instruction.endPosition at hlt hend ⊢
  omega

/-- Before the start of a shown instruction, order is kept both ways. -/
theorem Edge.le_position_iff (hp : body.Edge p) (hi : i ∈ body.instructions.toList) (hshown : i.isShown = true) :
    body.compact p ≤ body.compact i.position ↔ p ≤ i.position := by
  constructor
  · intro hle
    rcases hp i hi with hbefore | hafter
    · exact hbefore
    · have hlt := compact_position_lt h hi hshown
      have hmono := body.compact_mono hafter
      omega
  · exact fun hle => body.compact_mono hle

/-- Behind the end of a shown instruction, order is kept both ways. -/
theorem Edge.endPosition_le_iff (hp : body.Edge p) (hi : i ∈ body.instructions.toList)
    (hshown : i.isShown = true) : body.compact i.endPosition ≤ body.compact p ↔ i.endPosition ≤ p := by
  constructor
  · intro hle
    rcases hp i hi with hbefore | hafter
    · have hlt := compact_position_lt h hi hshown
      have hmono := body.compact_mono hbefore
      omega
    · exact hafter
  · exact fun hle => body.compact_mono hle

end

/-!
### Cursors
-/

/-- Hidden instructions do not move the cursor once they are gone. -/
theorem compact_cursorAfter (h : body.IsTiled) {first last : Nat} (hle : first ≤ last)
    (hhidden : ∀ k, first ≤ k → k < last → ∀ j, body.instructions.toList[k]? = some j → j.isShown = false) :
    body.compact (body.cursorAfter last) = body.compact (body.cursorAfter first) := by
  induction last, hle using Nat.le_induction with
  | base => rfl
  | succ last hle ih =>
      rw [← ih fun k hk hlt => hhidden k hk (Nat.lt_succ_of_lt hlt)]
      cases hj : body.instructions.toList[last]? with
      | none =>
          have hsize : body.instructions.size ≤ last := by simpa using hj
          rw [cursorAfter_of_size_le hsize, cursorAfter_of_size_le (Nat.le_succ_of_le hsize)]
      | some j =>
          rw [cursorAfter_succ hj, cursorAfter_eq_position h hj,
            compact_endPosition_of_hidden h (List.mem_of_getElem? hj) (hhidden last hle (Nat.lt_succ_self _) j hj)]

/-- An edge inside the code is the start of an instruction. -/
theorem Edge.exists_index (h : body.IsTiled) (hp : body.Edge p) (hlt : p < body.consumed) :
    ∃ (index : Nat) (j : Instruction), body.instructions.toList[index]? = some j ∧ j.position = p := by
  obtain ⟨j, hj, hposition⟩ := Consecutive.exists_position h (Nat.zero_le p) hlt hp
  obtain ⟨index, hindex, rfl⟩ := List.getElem_of_mem hj
  exact ⟨index, _, List.getElem?_eq_getElem hindex, hposition⟩

/-!
### Code without hidden instructions
-/

/-- The other body is what is left of the body once its hidden instructions are taken out: the shown instructions in
    their order, renumbered, with their targets moved in the same way. The addresses of operands and the offsets in the
    blob may be any. -/
structure StripsTo (body body' : Body) : Prop where
  instructions : List.Forall₂ (Instruction.Renumbered body.compact) body.shown body'.instructions.toList
  codeEnd : body'.codeEnd = body.compact body.codeEnd

/-- How many of the first instructions are shown. -/
def rank (body : Body) (count : Nat) : Nat := ((body.instructions.toList.take count).filter (·.isShown)).length

theorem rank_succ_of_shown {count : Nat} (hi : body.instructions.toList[count]? = some i)
    (hshown : i.isShown = true) : body.rank (count + 1) = body.rank count + 1 := by
  rw [rank, rank, List.take_add_one, hi]
  simp [hshown]

theorem shown_eq_append (body : Body) (count : Nat) :
    body.shown = (body.instructions.toList.take count).filter (·.isShown) ++
      (body.instructions.toList.drop count).filter (·.isShown) := by
  rw [← List.filter_append, List.take_append_drop]
  rfl

section

variable (h : body.IsTiled)

include h

/-- A renumbered instruction ends where the end of the instruction comes to stand. -/
theorem endPosition_of_renumbered {i' : Instruction} (hi : i ∈ body.instructions.toList)
    (hshown : i.isShown = true) (hrenumbered : i.Renumbered body.compact i') :
    i'.endPosition = body.compact i.endPosition := by
  rw [compact_endPosition_of_shown h hi hshown, Instruction.endPosition, hrenumbered.position, hrenumbered.size]

/-- What is left of instructions that stand end to end stands end to end. -/
theorem consecutive_shown {start stop : Nat} {is is' : List Instruction}
    (hconsecutive : Consecutive start is stop) (hmem : ∀ i ∈ is, i ∈ body.instructions.toList)
    (his : List.Forall₂ (Instruction.Renumbered body.compact) (is.filter (·.isShown)) is') :
    Consecutive (body.compact start) is' (body.compact stop) := by
  induction is generalizing start is' with
  | nil =>
      cases his
      exact congrArg _ hconsecutive
  | cons i rest ih =>
      obtain ⟨rfl, hsize, hrest⟩ := hconsecutive
      have hi := hmem i (List.mem_cons_self ..)
      have hmemRest : ∀ j ∈ rest, j ∈ body.instructions.toList := fun j hj => hmem j (List.mem_cons_of_mem _ hj)
      cases hshown : i.isShown with
      | false =>
          rw [List.filter_cons_of_neg (by simp [hshown])] at his
          have htail := ih hrest hmemRest his
          rwa [compact_endPosition_of_hidden h hi hshown] at htail
      | true =>
          rw [List.filter_cons_of_pos hshown] at his
          obtain ⟨i', rest', hrenumbered, hrest', rfl⟩ := List.forall₂_cons_left_iff.1 his
          refine ⟨hrenumbered.position, hrenumbered.size ▸ hsize, ?_⟩
          rw [endPosition_of_renumbered h hi hshown hrenumbered]
          exact ih hrest hmemRest hrest'

end

namespace StripsTo

variable {body' : Body} (h : body.StripsTo body')

include h

/-- The first instructions and what is left of them. -/
theorem take (count : Nat) :
    List.Forall₂ (Instruction.Renumbered body.compact) ((body.instructions.toList.take count).filter (·.isShown))
      (body'.instructions.toList.take (body.rank count)) := by
  have hall := List.forall₂_take (body.rank count) h.instructions
  rwa [body.shown_eq_append count, rank, List.take_left'] at hall
  rfl

/-- The instructions from an index on and what is left of them. -/
theorem drop (count : Nat) :
    List.Forall₂ (Instruction.Renumbered body.compact) ((body.instructions.toList.drop count).filter (·.isShown))
      (body'.instructions.toList.drop (body.rank count)) := by
  have hall := List.forall₂_drop (body.rank count) h.instructions
  rwa [body.shown_eq_append count, rank, List.drop_left'] at hall
  rfl

/-- A shown instruction is found at its rank. -/
theorem getElem? {count : Nat} (hi : body.instructions.toList[count]? = some i) (hshown : i.isShown = true) :
    ∃ i', body'.instructions.toList[body.rank count]? = some i' ∧ i.Renumbered body.compact i' := by
  have hdrop := h.drop count
  obtain ⟨hlt, rfl⟩ := List.getElem?_eq_some_iff.1 hi
  rw [List.drop_eq_getElem_cons hlt, List.filter_cons_of_pos hshown] at hdrop
  obtain ⟨i', rest, hrenumbered, -, heq⟩ := List.forall₂_cons_left_iff.1 hdrop
  refine ⟨i', ?_, hrenumbered⟩
  have hget : (body'.instructions.toList.drop (body.rank count))[0]? =
      body'.instructions.toList[body.rank count + 0]? := List.getElem?_drop
  rw [heq] at hget
  simpa using hget.symm

/-- A run of instructions and what is left of it. -/
theorem segment (first last : Nat) :
    List.Forall₂ (Instruction.Renumbered body.compact)
      (((body.instructions.toList.take last).drop first).filter (·.isShown))
      ((body'.instructions.toList.take (body.rank last)).drop (body.rank first)) := by
  have hall := List.forall₂_drop (body.rank first) (h.take last)
  have hparts : (body.instructions.toList.take last).filter (·.isShown) =
      ((body.instructions.toList.take last).take first).filter (·.isShown) ++
        ((body.instructions.toList.take last).drop first).filter (·.isShown) := by
    rw [← List.filter_append, List.take_append_drop]
  rcases Nat.le_total first last with hle | hle
  · rw [hparts, List.take_take, Nat.min_eq_left hle] at hall
    rwa [rank, List.drop_left] at hall
  · have hempty : (body.instructions.toList.take last).drop first = [] := by
      apply List.drop_eq_nil_of_le
      exact Nat.le_trans (List.length_take_le _ _) hle
    have hrank : ((body.instructions.toList.take last).filter (·.isShown)).length ≤ body.rank first := by
      apply List.Sublist.length_le
      exact ((List.take_sublist_take_left hle).filter _)
    rw [List.drop_eq_nil_of_le hrank] at hall
    rwa [hempty]

/-- What is left of a body stands end to end. -/
theorem consecutive (ht : body.IsTiled) :
    Consecutive 0 body'.instructions.toList (body.compact body.consumed) := by
  have hzero : body.compact 0 = 0 := Nat.le_zero.1 (compact_le ht 0)
  have hall := consecutive_shown ht ht (fun i hi => hi) h.instructions
  rwa [hzero] at hall

theorem length_eq : body'.instructions.toList.length = body.rank body.instructions.size := by
  rw [rank, List.take_of_length_le (by simp)]
  exact h.instructions.length_eq.symm

end StripsTo

end Body

end ScriptBytecode
