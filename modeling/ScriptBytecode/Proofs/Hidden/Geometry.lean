/-
Module: ScriptBytecode.Proofs.Hidden.Geometry
Purpose: Shapes of jumps in code from which the hidden instructions are taken out. Each question that the walk asks
  about the code has the same answer there, with positions moved: which conditional jumps end a `do` loop or guard a
  `while` loop, where a `switch` ends, and which `return` the compiler has added.
Main exports: Body.isDoUntil_renumbered, Body.isWhileGuard_renumbered, Body.switchEnd_renumbered,
  Body.isImplicitReturn_renumbered
-/
import Mathlib.Order.MinMax
import ScriptBytecode.Proofs.Hidden.Tolerance

namespace ScriptBytecode

namespace Body

variable {body body' : Body} {i i' : Instruction} {p : Nat}

/-- An instruction that was not hidden is one of those that are left. -/
theorem StripsTo.exists_renumbered (hs : body.StripsTo body') (hi : i ∈ body.instructions.toList)
    (hshown : i.isShown = true) : ∃ i' ∈ body'.instructions.toList, i.Renumbered body.compact i' := by
  obtain ⟨count, hcount, rfl⟩ := List.getElem_of_mem hi
  obtain ⟨i', hi', hrenumbered⟩ := hs.getElem? (List.getElem?_eq_getElem hcount) hshown
  exact ⟨i', List.mem_of_getElem? hi', hrenumbered⟩

/-- What is left was there before. -/
theorem StripsTo.exists_shown (hs : body.StripsTo body') (hi' : i' ∈ body'.instructions.toList) :
    ∃ i ∈ body.instructions.toList, i.isShown = true ∧ i.Renumbered body.compact i' := by
  obtain ⟨index, hindex, rfl⟩ := List.getElem_of_mem hi'
  have hlt : index < body.shown.length := hs.instructions.length_eq ▸ hindex
  have hmem := List.mem_filter.1 (List.getElem_mem hlt)
  exact ⟨body.shown[index], hmem.1, hmem.2, hs.instructions.get hlt hindex⟩

/-!
### Conditional jumps
-/

section

variable (hr : body.Regular) (hl : body.Landed)

include hr hl

theorem isDoUntil_renumbered (hi : i ∈ body.instructions.toList) (h : i.Renumbered body.compact i') :
    i'.isDoUntil = i.isDoUntil := by
  rw [i'.isDoUntil_eq, i.isDoUntil_eq, h.condTarget? (compact_le hr.tiled), h.position]
  cases htarget : i.token.condTarget? with
  | none => rfl
  | some t =>
      have hjump := Token.jumpTarget?_of_condTarget? htarget
      have hedge := (hl.border_of_target hr.tiled hi hjump).edge
      have hshown := hr.isShown_of_jumpTarget? hi hjump
      simp [hedge.le_position_iff hr.tiled hi hshown]

end

section

variable (hr : body.Regular) (hloops : body.LoopsApart) (hs : body.StripsTo body')

include hr hloops hs

/-- Guards of `while` loops stay guards, and nothing becomes one. -/
theorem isWhileGuard_renumbered (hi : i ∈ body.instructions.toList) (h : i.Renumbered body.compact i')
    (hcond : i.opcode = .jumpIfNot) : body'.isWhileGuard i' = body.isWhileGuard i := by
  have hle := compact_le hr.tiled
  rw [Bool.eq_iff_iff, isWhileGuard_iff (hs.consecutive hr.tiled), isWhileGuard_iff hr.tiled]
  have hshown : i.isShown = true := by simp [Instruction.isShown, hcond, Opcode.isHidden]
  have hend := endPosition_of_renumbered hr.tiled hi hshown h
  constructor
  · rintro ⟨t', htarget', hlt', j', hj', hclose', hjump', hback'⟩
    rw [h.condTarget? hle, Option.map_eq_some_iff] at htarget'
    obtain ⟨t, htarget, rfl⟩ := htarget'
    obtain ⟨j, hj, hjshown, hrenumbered⟩ := hs.exists_shown hj'
    have hjump : j.opcode = .jump := hrenumbered.opcode ▸ hjump'
    rw [hrenumbered.jumpTarget? hle, h.position, Option.map_eq_some_iff] at hback'
    obtain ⟨back, hback, hmerge⟩ := hback'
    rw [endPosition_of_renumbered hr.tiled hj hjshown hrenumbered] at hclose'
    rw [hend] at hlt'
    have hbehind : i.endPosition ≤ j.position := by
      rcases (edges_of_mem hr.tiled hi).2 j hj with hbefore | hafter
      · exact hbefore
      · have hmono := body.compact_mono hafter
        omega
    obtain ⟨hstop, hguard⟩ := hloops i hi t htarget j hj hjump back hback hbehind hclose' hmerge
    refine ⟨t, htarget, ?_, j, hj, hstop, hjump, hguard ▸ hback⟩
    exact body.compact_mono.reflect_lt hlt'
  · rintro ⟨t, htarget, hlt, j, hj, rfl, hjump, hback⟩
    have hjshown : j.isShown = true := by simp [Instruction.isShown, hjump, Opcode.isHidden]
    obtain ⟨j', hj', hrenumbered⟩ := hs.exists_renumbered hj hjshown
    have hclose := endPosition_of_renumbered hr.tiled hj hjshown hrenumbered
    refine ⟨j'.endPosition, ?_, ?_, j', hj', rfl, hrenumbered.opcode.trans hjump, ?_⟩
    · rw [h.condTarget? hle, htarget, hclose]
      rfl
    · -- The jump at the end of the loop stands behind the guard, so their ends stay apart.
      rw [hend, hclose]
      have hbehind : i.endPosition ≤ j.position := by
        rcases (edges_of_mem hr.tiled hi).2 j hj with hbefore | hafter
        · exact hbefore
        · omega
      exact Nat.lt_of_le_of_lt (body.compact_mono hbehind) (compact_position_lt hr.tiled hj hjshown)
    · rw [hrenumbered.jumpTarget? hle, hback, h.position]
      rfl

end

/-!
### Cases
-/

/-- Chains of cases that lead to the same place, but for the hidden instructions. -/
inductive ChainsAlike (body : Body) (limit : Nat) : CaseChain → CaseChain → Prop where
  | leaves {p p' : Nat} (hedge : body.Edge p) (hend : min p' (body.compact limit) = body.compact (min p limit)) :
      body.ChainsAlike limit (.leavesAt p) (.leavesAt p')
  | reaches {index : Nat} {i : Instruction} (hi : body.instructions.toList[index]? = some i)
      (hshown : i.isShown = true) : body.ChainsAlike limit (.reachesDefault index) (.reachesDefault (body.rank index))

/-- Hidden instructions that are skipped take no room once they are gone. -/
theorem compact_skipHidden (ht : body.IsTiled) {start : Nat} {first : Instruction}
    (hfirst : body.instructions.toList[start]? = some first) :
    body.compact (body.cursorAfter (body.skipHidden start)) = body.compact first.position := by
  obtain ⟨hskip, hbetween, -⟩ := body.skipHidden_spec start
  rw [compact_cursorAfter ht hskip hbetween, cursorAfter_eq_position ht hfirst]

/-- What is found by skipping hidden instructions stands right there once they are gone. -/
theorem StripsTo.exists_found (hs : body.StripsTo body') (ht : body.IsTiled) {start : Nat} {first : Instruction}
    (hfirst : body.instructions.toList[start]? = some first)
    (hi : body.instructions.toList[body.skipHidden start]? = some i) :
    ∃ i', i.Renumbered body.compact i' ∧
      body'.indexOf? (body.compact first.position) = some (body.rank (body.skipHidden start)) ∧
      body'.skipHidden (body.rank (body.skipHidden start)) = body.rank (body.skipHidden start) ∧
      body'.instructions.toList[body.rank (body.skipHidden start)]? = some i' := by
  have hshown := (body.skipHidden_spec start).2.2 i hi
  obtain ⟨i', hi', hrenumbered⟩ := hs.getElem? hi hshown
  have hvisible : i'.opcode.isHidden = false := by
    rw [hrenumbered.opcode]
    simpa [Instruction.isShown] using hshown
  have hget := hi'
  rw [Array.getElem?_toList] at hget
  refine ⟨i', hrenumbered, ?_, skipHidden_of_shown hget hvisible, hi'⟩
  rw [← compact_skipHidden ht hfirst, cursorAfter_eq_position ht hi, ← hrenumbered.position]
  exact indexOf?_of_getElem? (hs.consecutive ht) hget

section

variable (hr : body.Regular) (hl : body.Landed) (hcases : body.CasesApart) (hs : body.StripsTo body')

include hr hl hcases hs

/-- The chain of cases leads to the same place. Each round skips the hidden instructions in front of a case, of which
    none are left afterwards, so both chains take their rounds together. -/
theorem followCases_renumbered {limit : Nat} (hlimit : body.Edge limit) (hle : limit ≤ body.codeEnd)
    {bound bound' : Nat} (hp : body.Edge p) (hcase : p ∈ body.caseStarts) (hbound : body.Suffices bound p)
    (hbound' : body'.Suffices bound' (body.compact p)) :
    body.ChainsAlike limit (body.followCases limit bound p)
      (body'.followCases (body.compact limit) bound' (body.compact p)) := by
  induction bound generalizing p bound' with
  | zero => exact absurd hbound.1 (Nat.lt_irrefl 0)
  | succ bound ih =>
      obtain ⟨bound', rfl⟩ := Nat.exists_eq_succ_of_ne_zero (Nat.ne_of_gt hbound'.1)
      have hconsecutive := hs.consecutive hr.tiled
      rcases Nat.lt_or_ge p body.consumed with hinside | hpast
      · obtain ⟨start, first, hfirst, rfl⟩ := hp.exists_index hr.tiled hinside
        have hstart : body.indexOf? first.position = some start :=
          indexOf?_of_getElem? hr.tiled (by rwa [← Array.getElem?_toList])
        obtain ⟨hskip, -, hnext⟩ := body.skipHidden_spec start
        cases hi : body.instructions.toList[body.skipHidden start]? with
        | some i =>
            have hmem := List.mem_of_getElem? hi
            have hshown := hnext i hi
            obtain ⟨i', hrenumbered, hstart', hskip', hi'⟩ := hs.exists_found hr.tiled hfirst hi
            rw [followCases_of_getElem? hstart hi, followCases_of_getElem? hstart' (by rwa [hskip']), hskip',
              hrenumbered.caseExit? (compact_le hr.tiled), hrenumbered.position]
            rcases hexit : i.token.caseExit? with - | - | t
            · exact .leaves (edges_of_mem hr.tiled hmem).1 (body.compact_mono.map_min ..).symm
            · exact .reaches hi hshown
            · have hedge := (hl.border_of_target hr.tiled hmem (Token.jumpTarget?_of_caseExit? hexit)).edge
              have hforward := hedge.le_position_iff hr.tiled hmem hshown
              simp only [Option.map_some]
              by_cases hlt : i.position < t
              · have hlt' : body.compact i.position < body.compact t := by omega
                rw [if_pos hlt, if_pos hlt']
                exact ih hedge (mem_caseStarts_of_case hmem hexit) (hbound.next hr.tiled hstart hskip hi hlt)
                  (hbound'.next hconsecutive hstart' (Nat.le_refl _) hi' (hrenumbered.position ▸ hlt'))
              · have hge' : ¬ body.compact i.position < body.compact t := by omega
                rw [if_neg hlt, if_neg hge']
                exact .leaves hlimit (body.compact_mono.map_min ..).symm
        | none =>
            have hsame := compact_skipHidden hr.tiled hfirst
            rw [cursorAfter_of_size_le (by simpa using hi)] at hsame
            have hnone' : body'.indexOf? (body.compact first.position) = none :=
              indexOf?_of_le hconsecutive (Nat.le_of_eq hsame)
            have hshort : limit ≤ body.consumed := by
              have hdeclared := hcases.resolve_right fun hlast =>
                Nat.not_lt.2 (hlast first.position hcase hsame.symm) hinside
              rwa [codeEnd, Nat.max_eq_left hdeclared] at hle
            rw [Array.getElem?_toList] at hi
            unfold followCases
            simp only [hstart, hi, hnone']
            apply ChainsAlike.leaves hlimit
            rw [Nat.min_self, ← hsame]
            exact Nat.min_eq_right (body.compact_mono hshort)
      · have hnone : body.indexOf? p = none := indexOf?_of_le hr.tiled hpast
        have hnone' : body'.indexOf? (body.compact p) = none :=
          indexOf?_of_le hconsecutive (body.compact_mono hpast)
        unfold followCases
        simp only [hnone, hnone']
        exact .leaves hp (body.compact_mono.map_min ..).symm

end

/-!
### Ends of switches
-/

/-- Behind the limit no `return` is looked for. -/
theorem firstPlainReturn_of_le {limit openUntil start stop : Nat} {is : List Instruction}
    (h : Consecutive start is stop) (hle : limit ≤ start) : firstPlainReturn limit openUntil is = none := by
  cases is with
  | nil => rfl
  | cons i rest => rw [firstPlainReturn_cons, if_neg (by rw [h.1]; omega)]

/-- Targets of the jumps among some instructions. -/
def jumpTargets (is : List Instruction) : List Nat :=
  (is.filter (·.opcode == .jump)).filterMap (·.jumpTarget?)

theorem nearestBreak_eq_min? (body : Body) (first last p : Nat) :
    body.nearestBreak first last p =
      ((jumpTargets ((body.instructions.toList.take last).drop first)).filter (p < ·)).min? := by
  rw [nearestBreak, Array.toList_extract, List.extract_eq_take_drop, List.drop_take]
  rfl

theorem min?_map_of_monotone {f : Nat → Nat} (hf : Monotone f) (xs : List Nat) :
    (xs.map f).min? = xs.min?.map f := by
  cases xs with
  | nil => rfl
  | cons x rest =>
      rw [List.map_cons, List.min?_cons', List.min?_cons', Option.map_some]
      congr 1
      induction rest generalizing x with
      | nil => rfl
      | cons y rest ih => rw [List.map_cons, List.foldl_cons, List.foldl_cons, ← hf.map_min, ih]

section

variable (hr : body.Regular) (hl : body.Landed)

include hr hl

/-- The first plain `return` is the same one. -/
theorem firstPlainReturn_renumbered {limit openUntil start stop : Nat} {is is' : List Instruction}
    (hlimit : body.Edge limit) (hopen : body.Edge openUntil) (hconsecutive : Consecutive start is stop)
    (hmem : ∀ i ∈ is, i ∈ body.instructions.toList)
    (his : List.Forall₂ (Instruction.Renumbered body.compact) (is.filter (·.isShown)) is') :
    firstPlainReturn (body.compact limit) (body.compact openUntil) is' =
      (firstPlainReturn limit openUntil is).map body.compact := by
  induction is generalizing openUntil start is' with
  | nil =>
      cases his
      rfl
  | cons i rest ih =>
      have hi := hmem i (List.mem_cons_self ..)
      have hmemRest : ∀ j ∈ rest, j ∈ body.instructions.toList := fun j hj => hmem j (List.mem_cons_of_mem _ hj)
      obtain ⟨-, hsize, hrest⟩ := hconsecutive
      cases hshown : i.isShown with
      | false =>
          have hinert := hr.inert_of_hidden hi hshown
          rw [List.filter_cons_of_neg (by simp [hshown])] at his
          rw [ih hopen hrest hmemRest his, firstPlainReturn_cons, hinert.condTarget?, hinert.isReturn]
          split
          · rfl
          · rename_i hpast
            rw [firstPlainReturn_of_le hrest (by unfold Instruction.endPosition; omega)]
      | true =>
          rw [List.filter_cons_of_pos hshown] at his
          obtain ⟨i', rest', hrenumbered, hrest', rfl⟩ := List.forall₂_cons_left_iff.1 his
          have hbefore := hlimit.le_position_iff hr.tiled hi hshown
          rw [firstPlainReturn_cons, firstPlainReturn_cons, hrenumbered.condTarget? (compact_le hr.tiled),
            hrenumbered.position, hrenumbered.isReturn, endPosition_of_renumbered hr.tiled hi hshown hrenumbered]
          by_cases hlt : i.position < limit
          · rw [if_pos hlt, if_pos (by omega)]
            cases htarget : i.token.condTarget? with
            | some t =>
                have hedge :=
                  (hl.border_of_target hr.tiled hi (Token.jumpTarget?_of_condTarget? htarget)).edge
                have hforward := hedge.le_position_iff hr.tiled hi hshown
                simp only [Option.map_some]
                by_cases hahead : i.position < t
                · rw [if_pos hahead, if_pos (by omega), ← body.compact_mono.map_max]
                  exact ih (edge_max hopen hedge) hrest hmemRest hrest'
                · rw [if_neg hahead, if_neg (by omega)]
                  exact ih hopen hrest hmemRest hrest'
            | none =>
                have hbehind := hopen.le_position_iff hr.tiled hi hshown
                simp only [Option.map_none, hbehind]
                split
                · rfl
                · exact ih hopen hrest hmemRest hrest'
          · rw [if_neg hlt, if_neg (by omega)]
            rfl

omit hl in
/-- A `return` that is found ends at an edge. -/
theorem edge_of_firstPlainReturn {limit openUntil : Nat} {is : List Instruction}
    (hmem : ∀ i ∈ is, i ∈ body.instructions.toList) (hfound : firstPlainReturn limit openUntil is = some p) :
    body.Edge p := by
  induction is generalizing openUntil with
  | nil => cases hfound
  | cons i rest ih =>
      have hmemRest : ∀ j ∈ rest, j ∈ body.instructions.toList := fun j hj => hmem j (List.mem_cons_of_mem _ hj)
      rw [firstPlainReturn_cons] at hfound
      split at hfound
      · split at hfound
        · exact ih hmemRest hfound
        · split at hfound
          · cases hfound
            exact (edges_of_mem hr.tiled (hmem i (List.mem_cons_self ..))).2
          · exact ih hmemRest hfound
      · cases hfound

omit hl in
/-- Jumps lead to the same places. -/
theorem jumpTargets_renumbered {is is' : List Instruction} (hmem : ∀ i ∈ is, i ∈ body.instructions.toList)
    (his : List.Forall₂ (Instruction.Renumbered body.compact) (is.filter (·.isShown)) is') :
    jumpTargets is' = (jumpTargets is).map body.compact := by
  induction is generalizing is' with
  | nil =>
      cases his
      rfl
  | cons i rest ih =>
      have hmemRest : ∀ j ∈ rest, j ∈ body.instructions.toList := fun j hj => hmem j (List.mem_cons_of_mem _ hj)
      cases hshown : i.isShown with
      | false =>
          rw [List.filter_cons_of_neg (by simp [hshown])] at his
          rw [ih hmemRest his, jumpTargets, jumpTargets, List.filter_cons_of_neg]
          simp [Instruction.opcode_of_hidden hshown]
      | true =>
          rw [List.filter_cons_of_pos hshown] at his
          obtain ⟨i', rest', hrenumbered, hrest', rfl⟩ := List.forall₂_cons_left_iff.1 his
          have htail := ih hmemRest hrest'
          unfold jumpTargets at htail ⊢
          rw [List.filter_cons, List.filter_cons, hrenumbered.opcode]
          split
          · rw [List.filterMap_cons, List.filterMap_cons, hrenumbered.jumpTarget? (compact_le hr.tiled), htail]
            cases i.jumpTarget? <;> rfl
          · exact htail

/-- The nearest `break` past a shown instruction is the same one. -/
theorem nearestBreak_renumbered (hs : body.StripsTo body') (first last : Nat) (hi : i ∈ body.instructions.toList)
    (hshown : i.isShown = true) :
    body'.nearestBreak (body.rank first) (body.rank last) (body.compact i.position) =
      (body.nearestBreak first last i.position).map body.compact := by
  have hmem : ∀ j ∈ (body.instructions.toList.take last).drop first, j ∈ body.instructions.toList := fun j hj =>
    List.mem_of_mem_take (List.mem_of_mem_drop hj)
  have htargets := jumpTargets_renumbered hr hmem (hs.segment first last)
  have hfilter : (jumpTargets ((body.instructions.toList.take last).drop first)).filter
        ((body.compact i.position < ·) ∘ body.compact) =
      (jumpTargets ((body.instructions.toList.take last).drop first)).filter (i.position < ·) := by
    apply List.filter_congr
    intro t ht
    obtain ⟨j, hj, htarget⟩ := List.mem_filterMap.1 ht
    have hedge := (hl.border_of_target hr.tiled (hmem j (List.mem_of_mem_filter hj)) htarget).edge
    have hforward := hedge.le_position_iff hr.tiled hi hshown
    simp only [Function.comp, decide_eq_decide]
    omega
  rw [nearestBreak_eq_min?, nearestBreak_eq_min?, htargets, List.filter_map, ← min?_map_of_monotone body.compact_mono]
  exact congrArg (fun targets => (targets.map body.compact).min?) hfilter

end

/-- What ends a `switch` behind its `default` is an edge. -/
theorem edge_of_found (hr : body.Regular) (hl : body.Landed) {first last limit p t : Nat}
    (hfound : (body.nearestBreak first last p).or
      (firstPlainReturn limit 0 (body.instructions.toList.drop (last + 1))) = some t) : body.Edge t := by
  rcases Option.or_eq_some_iff.1 hfound with hbreak | ⟨-, hreturn⟩
  · rw [nearestBreak_eq_min?] at hbreak
    obtain ⟨j, hj, htarget⟩ := List.mem_filterMap.1 (List.mem_of_mem_filter (List.min?_mem hbreak))
    have hmem := List.mem_of_mem_take (List.mem_of_mem_drop (List.mem_of_mem_filter hj))
    exact (hl.border_of_target hr.tiled hmem htarget).edge
  · exact edge_of_firstPlainReturn hr (fun j hj => List.mem_of_mem_drop hj) hreturn

section

variable (hr : body.Regular) (hl : body.Landed) (hcases : body.CasesApart) (hs : body.StripsTo body')

include hr hl hcases hs

/-- A `switch` ends at the same place. -/
theorem switchEnd_renumbered {index limit : Nat} (hlimit : body.Border limit)
    (hi : body.instructions.toList[index]? = some i) (hswitch : i.opcode = .switch) :
    body'.switchEnd (body.rank index) (body.compact limit) = body.compact (body.switchEnd index limit) ∧
      body.Border (body.switchEnd index limit) := by
  have hshown : i.isShown = true := by simp [Instruction.isShown, hswitch, Opcode.isHidden]
  have hmem := List.mem_of_getElem? hi
  obtain ⟨i', hi', hrenumbered⟩ := hs.getElem? hi hshown
  have hend := endPosition_of_renumbered hr.tiled hmem hshown hrenumbered
  rw [switchEnd_of_getElem? hi, switchEnd_of_getElem? hi', hend]
  have hle := hlimit.le
  have halike := followCases_renumbered hr hl hcases hs hlimit.edge hle (edges_of_mem hr.tiled hmem).2
    (mem_caseStarts_of_switch hmem hswitch) (body.suffices_size _) (body'.suffices_size _)
  generalize body.followCases limit (body.instructions.size + 1) i.endPosition = chain at halike
  generalize body'.followCases (body.compact limit) (body'.instructions.size + 1) (body.compact i.endPosition) =
    chain' at halike
  cases halike with
  | leaves hedge hsame => exact ⟨hsame, edge_min hedge hlimit.edge, Nat.le_trans (Nat.min_le_right _ _) hle⟩
  | @reaches last arm harm harmShown =>
      obtain ⟨arm', harm', harmRenumbered⟩ := hs.getElem? harm harmShown
      have harmMem := List.mem_of_getElem? harm
      have hbreak := nearestBreak_renumbered hr hl hs (index + 1) last harmMem harmShown
      have hbehind : ∀ j ∈ body.instructions.toList.drop (last + 1), j ∈ body.instructions.toList :=
        fun j hj => List.mem_of_mem_drop hj
      have hreturn := firstPlainReturn_renumbered hr hl hlimit.edge body.edge_zero (hr.tiled.drop (last + 1)) hbehind
        (hs.drop (last + 1))
      have hzero : body.compact 0 = 0 := Nat.le_zero.1 (compact_le hr.tiled 0)
      rw [hzero, rank_succ_of_shown harm harmShown] at hreturn
      rw [rank_succ_of_shown hi hshown] at hbreak
      simp only [harm, harm', Option.map_some, Option.getD_some, harmRenumbered.position, hbreak, hreturn]
      refine ⟨?_, edge_min ?_ hlimit.edge, Nat.le_trans (Nat.min_le_right _ _) hle⟩
      · rw [body.compact_mono.map_min, ← Option.map_or, Option.getD_map]
      · generalize hfound : (body.nearestBreak (index + 1) last arm.position).or
          (firstPlainReturn limit 0 (body.instructions.toList.drop (last + 1))) = found
        cases found with
        | none => exact hlimit.edge
        | some t => exact edge_of_found hr hl hfound

end

/-!
### The last `return`
-/

theorem all_isTail_renumbered {f : Nat → Nat} {is is' : List Instruction}
    (his : List.Forall₂ (Instruction.Renumbered f) (is.filter (·.isShown)) is') :
    is'.all isTail = is.all isTail := by
  induction is generalizing is' with
  | nil =>
      cases his
      rfl
  | cons i rest ih =>
      cases hshown : i.isShown with
      | false =>
          rw [List.filter_cons_of_neg (by simp [hshown])] at his
          have hhidden : i.opcode.isHidden = true := by simpa [Instruction.isShown] using hshown
          rw [ih his, List.all_cons, isTail, hhidden]
          rfl
      | true =>
          rw [List.filter_cons_of_pos hshown] at his
          obtain ⟨i', rest', hrenumbered, hrest', rfl⟩ := List.forall₂_cons_left_iff.1 his
          rw [List.all_cons, List.all_cons, ih hrest', isTail, isTail, hrenumbered.opcode]

/-- The `return` that the compiler has added is the same one. -/
theorem isImplicitReturn_renumbered (hs : body.StripsTo body') {index : Nat}
    (hi : body.instructions.toList[index]? = some i) (hshown : i.isShown = true) :
    body'.isImplicitReturn (body.rank index) = body.isImplicitReturn index := by
  obtain ⟨i', hi', hrenumbered⟩ := hs.getElem? hi hshown
  have hbehind := hs.drop (index + 1)
  rw [rank_succ_of_shown hi hshown] at hbehind
  rw [isImplicitReturn_of_getElem? hi, isImplicitReturn_of_getElem? hi', hrenumbered.isBareReturn,
    all_isTail_renumbered hbehind]

end Body

end ScriptBytecode
