/-
Module: ScriptBytecode.Proofs.Body.Tiling
Purpose: Instructions that stand end to end. Their positions increase, and so do their ends, which is what the searches
  of a body rely on; a walk that has passed some of them stands at the next one.
Main exports: Consecutive, partitionPoint_of_increasing, Body.endingAt?_of_mem, Body.indexOf?_of_getElem?,
  Body.skipHidden_spec, Body.IsTiled, Body.cursorAfter
-/
import Mathlib.Data.List.Nodup
import ScriptBytecode.Body

namespace ScriptBytecode

/-- The instruction is not hidden. -/
def Instruction.isShown (i : Instruction) : Bool := !i.opcode.isHidden

/-- The instructions follow each other without gap or overlap from a logical position to another. -/
def Consecutive : (start : Nat) → List Instruction → (stop : Nat) → Prop
  | start, [], stop => start = stop
  | start, i :: rest, stop => i.position = start ∧ 0 < i.size ∧ Consecutive i.endPosition rest stop

namespace Consecutive

variable {start middle stop : Nat} {is js : List Instruction}

theorem append (his : Consecutive start is middle) (hjs : Consecutive middle js stop) :
    Consecutive start (is ++ js) stop := by
  induction is generalizing start with
  | nil => exact his ▸ hjs
  | cons i rest ih => exact ⟨his.1, his.2.1, ih his.2.2⟩

theorem le (h : Consecutive start is stop) : start ≤ stop := by
  induction is generalizing start with
  | nil => exact Nat.le_of_eq h
  | cons i rest ih =>
      obtain ⟨rfl, -, hrest⟩ := h
      exact Nat.le_trans (Nat.le_add_right ..) (ih hrest)

/-- What stands after a run. -/
theorem drop_left (h : Consecutive start (is ++ js) stop) (his : Consecutive start is middle) :
    Consecutive middle js stop := by
  induction is generalizing start with
  | nil => exact his ▸ h
  | cons i rest ih => exact ih h.2.2 his.2.2

theorem exists_middle (h : Consecutive start (is ++ js) stop) : ∃ middle, Consecutive start is middle := by
  induction is generalizing start with
  | nil => exact ⟨start, rfl⟩
  | cons i rest ih =>
      obtain ⟨middle, hmiddle⟩ := ih h.2.2
      exact ⟨middle, h.1, h.2.1, hmiddle⟩

/-- Every instruction lies between the ends. -/
theorem bounds (h : Consecutive start is stop) {i : Instruction} (hi : i ∈ is) :
    start ≤ i.position ∧ i.position < i.endPosition ∧ i.endPosition ≤ stop := by
  induction is generalizing start with
  | nil => cases hi
  | cons first rest ih =>
      obtain ⟨rfl, hsize, hrest⟩ := h
      rcases List.mem_cons.1 hi with rfl | hi
      · exact ⟨Nat.le_refl _, Nat.lt_add_of_pos_right hsize, hrest.le⟩
      · obtain ⟨hstart, hlt, hstop⟩ := ih hrest hi
        exact ⟨Nat.le_trans (Nat.le_add_right ..) hstart, hlt, hstop⟩

/-- Later instructions end later. -/
theorem pairwise_endPosition (h : Consecutive start is stop) :
    is.Pairwise fun i j => i.endPosition < j.endPosition := by
  induction is generalizing start with
  | nil => exact List.Pairwise.nil
  | cons first rest ih =>
      refine List.pairwise_cons.2 ⟨fun j hj => ?_, ih h.2.2⟩
      obtain ⟨hfirst, hlt, -⟩ := h.2.2.bounds hj
      exact Nat.lt_of_le_of_lt hfirst hlt

/-- The last instruction of a run that is not empty ends where the run does. -/
theorem exists_last (h : Consecutive start is stop) (hlt : start < stop) :
    ∃ last ∈ is, last.endPosition = stop := by
  induction is generalizing start with
  | nil => exact absurd h (Nat.ne_of_lt hlt)
  | cons first rest ih =>
      obtain ⟨rfl, -, hrest⟩ := h
      rcases Nat.lt_or_ge first.endPosition stop with hend | hend
      · obtain ⟨last, hlast, heq⟩ := ih hrest hend
        exact ⟨last, List.mem_cons_of_mem _ hlast, heq⟩
      · exact ⟨first, List.mem_cons_self .., Nat.le_antisymm hrest.le hend⟩

/-- Later instructions start later. -/
theorem pairwise_position (h : Consecutive start is stop) :
    is.Pairwise fun i j => i.position < j.position := by
  induction is generalizing start with
  | nil => exact List.Pairwise.nil
  | cons first rest ih =>
      refine List.pairwise_cons.2 ⟨fun j hj => ?_, ih h.2.2⟩
      exact Nat.lt_of_lt_of_le (Nat.lt_add_of_pos_right h.2.1) (h.2.2.bounds hj).1

/-- A run that stands end to end ends where its last instruction does. -/
theorem cursor_eq (h : Consecutive start is stop) :
    (is.getLast?.map (·.endPosition)).getD start = stop := by
  induction is generalizing start with
  | nil => exact h
  | cons i rest ih =>
      cases rest with
      | nil => exact h.2.2
      | cons second rest =>
          have htail := ih h.2.2
          rw [List.getLast?_cons_cons]
          rw [List.getLast?_eq_some_getLast (List.cons_ne_nil _ _)] at htail ⊢
          exact htail

/-- Where no instruction lies across a position, one starts. -/
theorem exists_position {p : Nat} (h : Consecutive start is stop)
    (hle : start ≤ p) (hlt : p < stop) (hp : ∀ i ∈ is, p ≤ i.position ∨ i.endPosition ≤ p) :
    ∃ i ∈ is, i.position = p := by
  induction is generalizing start with
  | nil => exact absurd h (Nat.ne_of_lt (Nat.lt_of_le_of_lt hle hlt))
  | cons i rest ih =>
      obtain ⟨rfl, -, hrest⟩ := h
      rcases hp i (List.mem_cons_self ..) with hbefore | hafter
      · exact ⟨i, List.mem_cons_self .., Nat.le_antisymm hle hbefore⟩
      · obtain ⟨j, hj, hposition⟩ := ih hrest hafter fun j hj => hp j (List.mem_cons_of_mem _ hj)
        exact ⟨j, List.mem_cons_of_mem _ hj, hposition⟩

end Consecutive

/-!
### Searches
-/

/-- Binary search finds the point at which a predicate turns. -/
theorem partitionPoint_eq {before : Nat → Bool} {low point high : Nat} (hlow : low ≤ point)
    (hhigh : point ≤ high) (hbefore : ∀ k < point, before k = true)
    (hafter : ∀ k < high, point ≤ k → before k = false) :
    partitionPoint before low high = point := by
  fun_induction partitionPoint before low high with
  | case1 low high hlt middle hmiddle ih =>
      have hpoint : middle < point := by
        by_contra hge
        rw [hafter middle (by omega) (by omega)] at hmiddle
        cases hmiddle
      exact ih hpoint hhigh hafter
  | case2 low high hlt middle hmiddle ih =>
      have hpoint : point ≤ middle := by
        by_contra hlt'
        exact hmiddle (hbefore middle (by omega))
      exact ih hlow hpoint fun k hk => hafter k (by omega)
  | case3 low high hge => omega

/-- Binary search over instructions with increasing keys finds each by its key. -/
theorem partitionPoint_of_increasing (key : Instruction → Nat) {is : Array Instruction}
    (hincreasing : is.toList.Pairwise fun i j => key i < key j) {index : Nat} {i : Instruction}
    (hi : is[index]? = some i) : partitionPoint (fun j => is[j]?.any fun x => key x < key i) 0 is.size = index := by
  obtain ⟨hindex, rfl⟩ := Array.getElem?_eq_some_iff.1 hi
  have hlt := List.pairwise_iff_getElem.1 hincreasing
  refine partitionPoint_eq (Nat.zero_le _) (Nat.le_of_lt hindex) (fun j hj => ?_) fun j hj hle => ?_
  · have hsize : j < is.size := Nat.lt_trans hj hindex
    simpa [hsize] using hlt j index hsize hindex hj
  · have hkey : key is[index] ≤ key is[j] := by
      rcases Nat.eq_or_lt_of_le hle with rfl | hafter
      · exact Nat.le_refl _
      · exact Nat.le_of_lt (hlt index j hindex hj hafter)
    simpa [hj] using hkey

namespace Body

variable {body : Body} {start stop index p : Nat} {i : Instruction}

/-- In a body whose instructions stand end to end, each is found by its end. -/
theorem endingAt?_of_mem (h : Consecutive start body.instructions.toList stop)
    (hi : i ∈ body.instructions.toList) : body.endingAt? i.endPosition = some i := by
  obtain ⟨index, hindex⟩ := Array.mem_iff_getElem?.1 (Array.mem_toList_iff.1 hi)
  rw [endingAt?, partitionPoint_of_increasing Instruction.endPosition h.pairwise_endPosition hindex, hindex]
  simp

/-- In a body whose instructions stand end to end, each is found by its position. -/
theorem indexOf?_of_getElem? (h : Consecutive start body.instructions.toList stop)
    (hi : body.instructions[index]? = some i) : body.indexOf? i.position = some index := by
  rw [indexOf?, partitionPoint_of_increasing Instruction.position h.pairwise_position hi, hi]
  simp

theorem position_of_indexOf? (h : body.indexOf? p = some index) :
    ∃ j, body.instructions.toList[index]? = some j ∧ j.position = p := by
  unfold indexOf? at h
  dsimp only at h
  split at h
  · rename_i hany
    cases h
    obtain ⟨j, hj, hposition⟩ := (Option.any_eq_true ..).1 hany
    exact ⟨j, by rwa [Array.getElem?_toList], by simpa using hposition⟩
  · cases h

/-- Nothing starts past the end of the code. -/
theorem indexOf?_of_le (h : Consecutive start body.instructions.toList stop) (hle : stop ≤ p) :
    body.indexOf? p = none := by
  cases hindex : body.indexOf? p with
  | none => rfl
  | some index =>
      obtain ⟨j, hj, rfl⟩ := position_of_indexOf? hindex
      obtain ⟨-, hlt, hend⟩ := h.bounds (List.mem_of_getElem? hj)
      omega

/-- What starts later stands later. -/
theorem lt_indexOf? {other : Nat} (h : Consecutive start body.instructions.toList stop)
    (hindex : body.indexOf? p = some index) (hi : body.instructions.toList[other]? = some i)
    (hlt : i.position < p) : other < index := by
  obtain ⟨j, hj, rfl⟩ := position_of_indexOf? hindex
  obtain ⟨hother, rfl⟩ := List.getElem?_eq_some_iff.1 hi
  obtain ⟨hstart, rfl⟩ := List.getElem?_eq_some_iff.1 hj
  by_contra hge
  rcases Nat.eq_or_lt_of_le (Nat.le_of_not_lt hge) with heq | hbefore
  · simp only [heq, Nat.lt_irrefl] at hlt
  · have hincreasing := List.pairwise_iff_getElem.1 h.pairwise_position index other hstart hother hbefore
    omega

theorem skipHidden_of_shown (hi : body.instructions[index]? = some i) (hshown : i.opcode.isHidden = false) :
    body.skipHidden index = index := by
  obtain ⟨hindex, rfl⟩ := Array.getElem?_eq_some_iff.1 hi
  unfold skipHidden
  simp [hindex, hshown]

/-- Hidden instructions are skipped up to the next shown one. -/
theorem skipHidden_spec (body : Body) (start : Nat) :
    start ≤ body.skipHidden start ∧
      (∀ k, start ≤ k → k < body.skipHidden start → ∀ j, body.instructions.toList[k]? = some j → j.isShown = false) ∧
      ∀ j, body.instructions.toList[body.skipHidden start]? = some j → j.isShown = true := by
  fun_induction skipHidden body start with
  | case1 start hlt hhidden ih =>
      obtain ⟨hle, hbetween, hnext⟩ := ih
      refine ⟨Nat.le_of_succ_le hle, fun k hk hend j hj => ?_, hnext⟩
      rcases Nat.eq_or_lt_of_le hk with rfl | hk
      · rw [Array.getElem?_toList, Array.getElem?_eq_getElem hlt] at hj
        cases hj
        simp [Instruction.isShown, hhidden]
      · exact hbetween k hk hend j hj
  | case2 start hlt hshown =>
      refine ⟨Nat.le_refl _, fun k hk hend => by omega, fun j hj => ?_⟩
      rw [Array.getElem?_toList, Array.getElem?_eq_getElem hlt] at hj
      cases hj
      simpa [Instruction.isShown] using hshown
  | case3 start hge =>
      refine ⟨Nat.le_refl _, fun k hk hend => by omega, fun j hj => ?_⟩
      rw [Array.getElem?_toList, Array.getElem?_eq_none (by omega)] at hj
      cases hj

/-!
### Whole bodies
-/

/-- The instructions stand end to end from the start of the code on. -/
def IsTiled (body : Body) : Prop := Consecutive 0 body.instructions.toList body.consumed

/-- Instructions that end at one position are the same. -/
theorem IsTiled.eq_of_endPosition (h : body.IsTiled) {j : Instruction}
    (hi : i ∈ body.instructions.toList) (hj : j ∈ body.instructions.toList) (hend : i.endPosition = j.endPosition) :
    i = j := by
  have hnodup : (body.instructions.toList.map (·.endPosition)).Nodup :=
    (List.pairwise_map.2 (Consecutive.pairwise_endPosition h)).imp Nat.ne_of_lt
  exact List.inj_on_of_nodup_map hnodup hi hj hend

/-- Where the walk stands after a number of instructions. -/
def cursorAfter (body : Body) (count : Nat) : Nat :=
  ((body.instructions.toList.take count).getLast?.map (·.endPosition)).getD 0

/-- The walk stands at an instruction after those before it. -/
theorem cursorAfter_eq_position (h : body.IsTiled) {count : Nat} (hi : body.instructions.toList[count]? = some i) :
    body.cursorAfter count = i.position := by
  obtain ⟨hlt, rfl⟩ := List.getElem?_eq_some_iff.1 hi
  unfold IsTiled at h
  rw [← List.take_append_drop count body.instructions.toList, List.drop_eq_getElem_cons hlt] at h
  obtain ⟨middle, hbefore⟩ := h.exists_middle
  obtain ⟨hstart, -⟩ := h.drop_left hbefore
  rw [hstart, cursorAfter]
  exact hbefore.cursor_eq

theorem cursorAfter_succ {count : Nat} (hi : body.instructions.toList[count]? = some i) :
    body.cursorAfter (count + 1) = i.endPosition := by
  rw [cursorAfter, List.take_add_one, hi]
  simp

theorem cursorAfter_of_size_le {count : Nat} (hle : body.instructions.size ≤ count) :
    body.cursorAfter count = body.consumed := by
  rw [cursorAfter, List.take_of_length_le (by simpa using hle), consumed, Array.getLast?_toList]

/-- The instructions from an index on stand end to end. -/
theorem IsTiled.drop (h : body.IsTiled) (count : Nat) :
    Consecutive (body.cursorAfter count) (body.instructions.toList.drop count) body.consumed := by
  unfold IsTiled at h
  rw [← List.take_append_drop count body.instructions.toList] at h
  obtain ⟨middle, hbefore⟩ := h.exists_middle
  have hcursor : body.cursorAfter count = middle := hbefore.cursor_eq
  rw [hcursor]
  exact h.drop_left hbefore

end Body

end ScriptBytecode
