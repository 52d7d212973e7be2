/-
Module: ScriptBytecode.Proofs.Structured.SwitchEnd
Purpose: Where a `switch` ends is found. The bytecode holds the end of a `switch` nowhere. In structured code the chain
  of cases leads to it when there is no `default`; when there is one, the jumps of the arms before it lead to the end,
  and every other jump in these arms stays inside them.
Main exports: Body.Holds, Body.followCases_chained, Body.nearestBreak_eq, Body.switchEnd_chained
-/
import ScriptBytecode.Proofs.Decoding.Partition
import ScriptBytecode.Proofs.Structured.Shape

namespace ScriptBytecode

namespace Body

variable {body : Body} {index position : Nat} {i : Instruction}

theorem getElem?_of_drop {rest : List Instruction} (h : body.instructions.toList.drop index = i :: rest) :
    body.instructions[index]? = some i := by
  have hget : (body.instructions.toList.drop index)[0]? = body.instructions.toList[index + 0]? := List.getElem?_drop
  rw [h] at hget
  simpa using hget.symm

/-!
### A run in a body
-/

/-- The instructions stand in a body from an index on, with some others behind them. -/
structure Holds (body : Body) (index : Nat) (is after : List Instruction) : Prop where
  standing : ∃ start stop, Consecutive start body.instructions.toList stop
  placed : body.instructions.toList.drop index = is ++ after

namespace Holds

variable {is js after : List Instruction}

theorem getElem? (h : body.Holds index (i :: is) after) : body.instructions[index]? = some i :=
  getElem?_of_drop h.placed

theorem tail (h : body.Holds index (i :: is) after) : body.Holds (index + 1) is after where
  standing := h.standing
  placed := by
    rw [← List.drop_drop, h.placed]
    rfl

theorem left (h : body.Holds index (is ++ js) after) : body.Holds index is (js ++ after) where
  standing := h.standing
  placed := by rw [h.placed, List.append_assoc]

theorem right (h : body.Holds index (is ++ js) after) : body.Holds (index + is.length) js after where
  standing := h.standing
  placed := by rw [← List.drop_drop, h.placed, List.append_assoc, List.drop_left]

theorem mem (h : body.Holds index is after) (hi : i ∈ is) : i ∈ body.instructions.toList := by
  have hdrop : i ∈ body.instructions.toList.drop index := by
    rw [h.placed]
    exact List.mem_append_left _ hi
  exact List.mem_of_mem_drop hdrop

theorem endingAt? (h : body.Holds index is after) (hi : i ∈ is) : body.endingAt? i.endPosition = some i := by
  obtain ⟨start, stop, hstanding⟩ := h.standing
  exact endingAt?_of_mem hstanding (h.mem hi)

/-- What stands behind a run starts where the run stops. -/
theorem consecutive {exit : Nat} (h : body.Holds index (i :: is) after)
    (hrun : Consecutive i.position (i :: is) exit) : ∃ stop, Consecutive exit after stop := by
  obtain ⟨start, stop, hstanding⟩ := h.standing
  rw [← List.take_append_drop index body.instructions.toList] at hstanding
  obtain ⟨middle, hbefore⟩ := hstanding.exists_middle
  have hrest := hstanding.drop_left hbefore
  rw [h.placed] at hrest
  obtain rfl := hrest.1
  exact ⟨stop, hrest.drop_left hrun⟩

/-- What stands behind a run starts before the end of the code. -/
theorem le_codeEnd {exit : Nat} (h : body.Holds index is after) (hbehind : Unlabelled after)
    (hafter : ∃ stop, Consecutive exit after stop) : exit ≤ body.codeEnd := by
  obtain ⟨start, stop, hstanding⟩ := h.standing
  obtain ⟨i, rest, rfl, -⟩ := hbehind
  obtain ⟨-, rfl, -⟩ := hafter
  have hmem : i ∈ body.instructions.toList.drop index := by simp [h.placed]
  have hend := endPosition_le_codeEnd (hstanding.pairwise_endPosition.imp Nat.le_of_lt) (List.mem_of_mem_drop hmem)
  exact Nat.le_trans (Nat.le_add_right ..) hend

end Holds

/-!
### The chain of cases
-/

variable {limit bound : Nat}

/-- The chain is followed over a label. -/
theorem followCases_of_label {start stop : Nat} (h : Consecutive start body.instructions.toList stop)
    (hi : body.instructions[index]? = some i) (hopcode : i.opcode = .caseLabel) {target : UInt16}
    {value : Option Instruction} (htoken : i.token = .caseLabel target value) :
    body.followCases limit (bound + 1) i.position =
      if target = defaultCaseTarget then .reachesDefault index
      else if i.position < target.toNat then body.followCases limit bound target.toNat
      else .leavesAt limit := by
  have hshown : i.opcode.isHidden = false := by simp [hopcode, Opcode.isHidden]
  simp only [followCases, indexOf?_of_getElem? h hi, skipHidden_of_shown hi hshown, hi, htoken]

/-- The chain ends at an instruction that is no label. -/
theorem followCases_of_no_label {start stop : Nat} (h : Consecutive start body.instructions.toList stop)
    (hi : body.instructions[index]? = some i) (hshown : i.opcode.isHidden = false)
    (htoken : ∀ t v, i.token ≠ .caseLabel t v) :
    body.followCases limit (bound + 1) i.position = .leavesAt i.position := by
  simp only [followCases, indexOf?_of_getElem? h hi, skipHidden_of_shown hi hshown, hi]

variable {words : Vocabulary} {scope : Scope} {exit start : Nat} {arms : List Arm} {after : List Instruction}

/-- The chain of cases leads to the end of the `switch` or to its `default`, which is the last arm. -/
theorem followCases_chained (h : Chained words scope exit start arms)
    (hbodies : ∀ arm ∈ arms, Consecutive arm.label.endPosition arm.body arm.leave.position)
    (hholds : body.Holds index (arms.flatMap Arm.code) after) (hbehind : Unlabelled after)
    (hafter : ∃ stop, Consecutive exit after stop) (hbound : arms.length < bound) :
    body.followCases limit bound start = .leavesAt exit ∨
      ∃ cases arm, arms = cases ++ [arm] ∧ arm.label.jumpTarget? = none ∧
        body.followCases limit bound start = .reachesDefault (index + (cases.flatMap Arm.code).length) := by
  obtain ⟨first, last, hstanding⟩ := hholds.standing
  obtain ⟨bound, rfl⟩ := Nat.exists_eq_add_one_of_ne_zero (Nat.ne_of_gt (Nat.lt_of_le_of_lt (Nat.zero_le _) hbound))
  induction h generalizing bound index with
  | nil =>
      obtain ⟨i, rest, rfl, hshown, htoken⟩ := hbehind
      obtain ⟨stop, rfl, -⟩ := hafter
      exact Or.inl (followCases_of_no_label hstanding (getElem?_of_drop hholds.placed) hshown htoken)
  | @fallback start arm label leave last =>
      obtain rfl := label.position
      refine Or.inr ⟨[], arm, rfl, label.jumpTarget, ?_⟩
      rw [followCases_of_label hstanding hholds.getElem? label.opcode label.token, if_pos rfl]
      rfl
  | @cons start arm arms label leave rest ih =>
      obtain ⟨hbody, hbodies⟩ := List.forall_mem_cons.1 hbodies
      obtain ⟨t, v, text, remark, htoken, hcase, htarget, -⟩ := label.token
      have hforward : arm.label.position < t.toNat := by
        have hlabel := label.lt
        have hleave := leave.lt
        have hle := hbody.le
        have hposition := label.position
        omega
      rw [List.flatMap_cons] at hholds
      obtain ⟨bound, rfl⟩ : ∃ n, bound = n + 1 :=
        Nat.exists_eq_add_one_of_ne_zero fun hzero => by simp [hzero] at hbound
      have hfollow : body.followCases limit (bound + 1 + 1) start =
          body.followCases limit (bound + 1) arm.leave.endPosition := by
        obtain rfl := label.position
        rw [followCases_of_label hstanding hholds.getElem? label.opcode htoken, if_neg hcase, if_pos hforward,
          htarget]
      rw [hfollow]
      refine (ih hbodies hholds.right bound (by simpa using hbound)).imp_right ?_
      rintro ⟨cases, last, rfl, hlast, hreaches⟩
      refine ⟨arm :: cases, last, rfl, hlast, ?_⟩
      rw [hreaches, List.flatMap_cons, List.length_append, Nat.add_assoc]

/-!
### The end of a `switch`
-/

/-- Among jumps that stay before a position or lead to `exit`, the nearest target past the position is `exit`. -/
theorem nearestBreak_eq {is rest : List Instruction} (hplaced : body.instructions.toList.drop index = is ++ rest)
    (hjumps : ∀ i ∈ is, i.opcode = .jump → ∀ target, i.jumpTarget? = some target → target ≤ position ∨ target = exit)
    (hleave : ∃ i ∈ is, i.opcode = .jump ∧ i.jumpTarget? = some exit) (hlt : position < exit) :
    body.nearestBreak index (index + is.length) position = some exit := by
  have hextract : (body.instructions.extract index (index + is.length)).toList = is := by
    rw [Array.toList_extract, List.extract_eq_take_drop, hplaced, Nat.add_sub_cancel_left, List.take_left]
  unfold nearestBreak
  rw [hextract]
  refine List.min?_eq_some_iff.2 ⟨?_, fun target htarget => ?_⟩
  · obtain ⟨i, hi, hopcode, htarget⟩ := hleave
    simp only [List.mem_filter, List.mem_filterMap, beq_iff_eq, decide_eq_true_eq]
    exact ⟨⟨i, ⟨hi, hopcode⟩, htarget⟩, hlt⟩
  · simp only [List.mem_filter, List.mem_filterMap, beq_iff_eq, decide_eq_true_eq] at htarget
    obtain ⟨⟨i, ⟨hi, hopcode⟩, htarget⟩, hpast⟩ := htarget
    rcases hjumps i hi hopcode target htarget with hle | rfl
    · exact absurd hpast (Nat.not_lt.2 hle)
    · exact Nat.le_refl _

end Body

namespace Arm

theorem length_le_flatMap_code (arms : List Arm) : arms.length ≤ (arms.flatMap code).length := by
  induction arms with
  | nil => exact Nat.le_refl _
  | cons arm arms ih =>
      simp only [List.flatMap_cons, List.length_append, List.length_cons, code]
      omega

variable {arm : Arm} {start exit : Nat}

theorem leave_mem_code (arm : Arm) : arm.leave ∈ arm.code := by simp [code]

theorem Fits.label_lt (h : arm.Fits start exit) : arm.label.position < exit := by
  obtain ⟨-, hlt, hle⟩ := h.consecutive.bounds (List.mem_cons_self ..)
  exact Nat.lt_of_lt_of_le hlt (Nat.le_trans hle h.stop_le)

/-- The jumps of an arm stay in it or lead to the end of the `switch`. -/
theorem Fits.jumps (h : arm.Fits start exit)
    (hbody : ∀ i ∈ arm.body, i.Stays (some ⟨exit, none⟩) arm.label.endPosition arm.leave.position) :
    ∀ i ∈ arm.code, i.opcode = .jump → ∀ target, i.jumpTarget? = some target →
      target ≤ arm.leave.position ∨ target = exit := by
  simp only [code, List.forall_mem_cons, List.forall_mem_append]
  refine ⟨fun hopcode => ?_, fun i hi _ target htarget => ?_, fun _ target htarget => ?_, by simp⟩
  · rw [h.opcode] at hopcode
    cases hopcode
  · rcases hbody i hi target htarget with ⟨-, hle⟩ | ⟨-, l, hl, hexit⟩
    · exact Or.inl hle
    · cases hl
      rcases hexit with hguard | hstop
      · cases hguard
      · exact Or.inr hstop.symm
  · exact Or.inr (Option.some.inj (htarget.symm.trans h.leave.jumpTarget))

end Arm

section

variable {words : Vocabulary} {scope : Scope} {options : Options} {body : Body}
  {depth index start exit limit : Nat} {head : Instruction} {value : String} {arms cases : List Arm} {arm : Arm}
  {js after : List Instruction}

/-- The nearest jump past the `default` of a `switch` leads to the end of the `switch`. -/
theorem Body.nearestBreak_chained (cased : StartsWithCase (cases ++ [arm]))
    (chained : Chained words scope exit start (cases ++ [arm]))
    (bodies : ∀ a ∈ cases ++ [arm], Laid words scope options (some ⟨exit, none⟩) depth a.label.endPosition a.body
      a.leave.position a.rows)
    (hdefault : arm.label.jumpTarget? = none)
    (hplaced : body.instructions.toList.drop index = (cases ++ [arm]).flatMap Arm.code ++ after) :
    body.nearestBreak index (index + (cases.flatMap Arm.code).length) arm.label.position = some exit := by
  have hbodies := fun a ha => (bodies a ha).consecutive
  have hfits := chained.fits hbodies
  have hrun := chained.consecutive hbodies
  rw [List.flatMap_append, List.flatMap_singleton] at hrun hplaced
  -- The arms before `default` end where its label stands.
  have hcases : Consecutive start (cases.flatMap Arm.code) arm.label.position := by
    obtain ⟨middle, hmiddle⟩ := hrun.exists_middle
    obtain rfl := (hrun.drop_left hmiddle).1
    exact hmiddle
  rw [List.append_assoc] at hplaced
  refine nearestBreak_eq hplaced (fun i hi hopcode target htarget => ?_) ?_ (hfits arm (by simp)).label_lt
  · obtain ⟨a, ha, hcode⟩ := List.mem_flatMap.1 hi
    have ha' : a ∈ cases ++ [arm] := List.mem_append_left _ ha
    refine ((hfits a ha').jumps (bodies a ha').stays i hcode hopcode target htarget).imp_left fun hle => ?_
    have hleave := hcases.bounds (List.mem_flatMap.2 ⟨a, ha, a.leave_mem_code⟩)
    omega
  · obtain ⟨first, rest, hfirst, hsome⟩ := cased
    cases cases with
    | nil =>
        cases hfirst
        rw [hdefault] at hsome
        cases hsome
    | cons a others =>
        have hleave := (hfits a (by simp)).leave
        exact ⟨a.leave, List.mem_flatMap.2 ⟨a, by simp, a.leave_mem_code⟩, hleave.opcode, hleave.jumpTarget⟩

/-- The end of a `switch` in structured code is found, whatever the block around it that it must not leave. -/
theorem Body.switchEnd_chained (header : IsSwitch words scope head start value) (cased : StartsWithCase arms)
    (chained : Chained words scope exit head.endPosition arms)
    (bodies : ∀ arm ∈ arms, Laid words scope options (some ⟨exit, none⟩) depth arm.label.endPosition arm.body
      arm.leave.position arm.rows)
    (hholds : body.Holds index (head :: (arms.flatMap Arm.code ++ js)) after) (hbehind : Unlabelled (js ++ after))
    (hlimit : exit ≤ limit) : body.switchEnd index limit = exit := by
  have hbodies := fun arm harm => (bodies arm harm).consecutive
  have hswitch : body.Holds index (head :: arms.flatMap Arm.code) (js ++ after) := hholds.left
  have hafter := hswitch.consecutive ⟨rfl, header.size, chained.consecutive hbodies⟩
  have hbound : arms.length < body.instructions.size + 1 := by
    have hlength := congrArg List.length hswitch.placed
    have harms := Arm.length_le_flatMap_code arms
    simp only [List.length_drop, List.length_append, List.length_cons, Array.length_toList] at hlength
    omega
  unfold Body.switchEnd
  rw [hswitch.getElem?]
  dsimp only
  have hchain : body.followCases limit (body.instructions.size + 1) head.endPosition = .leavesAt exit ∨ _ :=
    followCases_chained chained hbodies hswitch.tail hbehind hafter hbound
  rcases hchain with hleaves | ⟨cases, arm, rfl, hdefault, hreaches⟩
  · rw [hleaves]
    exact Nat.min_eq_left hlimit
  · have hplaced := hswitch.tail.placed
    have hnearest := nearestBreak_chained cased chained bodies hdefault hplaced
    have hlabel : body.instructions[index + 1 + (cases.flatMap Arm.code).length]? = some arm.label := by
      rw [List.flatMap_append, List.flatMap_singleton, List.append_assoc] at hplaced
      have hdrop : body.instructions.toList.drop (index + 1 + (cases.flatMap Arm.code).length) =
          arm.code ++ (js ++ after) := by
        rw [← List.drop_drop, hplaced, List.drop_left]
      exact getElem?_of_drop hdrop
    rw [hreaches]
    dsimp only
    rw [hlabel, Option.map_some, Option.getD_some, hnearest, Option.some_or, Option.getD_some]
    exact Nat.min_eq_left hlimit

end

end ScriptBytecode
