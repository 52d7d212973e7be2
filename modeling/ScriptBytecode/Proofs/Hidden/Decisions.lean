/-
Module: ScriptBytecode.Proofs.Hidden.Decisions
Purpose: What instructions do in code from which the hidden instructions are taken out. The blocks of a walk are
  grounded in the code: they end at stops, and what created them is an instruction of the right kind. Every question
  that a statement asks about grounded blocks has the same answer once positions have moved, so the statement has the
  same words and queues the same markers, or it is a `goto` to the same place.
Main exports: Statement.StemsFrom, OpenBlock.Grounded, Blocks.Grounded, Blocks.Grounded.reconcile, Walk.ActsAlike,
  Walk.perform_actsAlike, Walk.perform_grounded
-/
import ScriptBytecode.Proofs.Hidden.Geometry
import ScriptBytecode.Proofs.Walk.Closing

namespace ScriptBytecode

/-!
### Statements and their instructions
-/

/-- The statement is one that the instruction can be. -/
def Statement.StemsFrom (i : Instruction) : Statement → Prop
  | .branch target _ => i.opcode = .jumpIfNot ∧ i.token.condTarget? = some target
  | .jump target => i.opcode = .jump ∧ i.jumpTarget? = some target
  | .editorOnly target => i.opcode = .filterEditorOnly ∧ i.jumpTarget? = some target
  | .switch _ => i.opcode = .switch
  | .caseArm target _ => i.jumpTarget? = some target
  | .forEach _ stop => (i.opcode = .iterator ∨ i.opcode = .dynArrayIterator) ∧ i.jumpTarget? = some stop
  | _ => True

open Render in
theorem Instruction.statement_stems (words : Vocabulary) (scope : Scope) (insideSwitch : Bool) {i : Instruction}
    {format : Format} (hsuits : i.token.Suits format i.opcode) :
    (i.statement words scope insideSwitch).Yields (·.StemsFrom i) := by
  unfold Instruction.statement
  unfold Token.Suits at hsuits
  split
  case h_1 htoken =>
    rw [htoken] at hsuits
    exact yields_bind fun _ => yields_pure ⟨hsuits, by simp [htoken, Token.condTarget?]⟩
  case h_2 htoken =>
    rw [htoken] at hsuits
    exact yields_pure ⟨hsuits, by simp [Instruction.jumpTarget?, htoken, Token.jumpTarget?]⟩
  case h_3 htoken =>
    rw [htoken] at hsuits
    exact yields_pure ⟨hsuits, by simp [Instruction.jumpTarget?, htoken, Token.jumpTarget?]⟩
  case h_4 htoken =>
    rw [htoken] at hsuits
    exact yields_bind fun _ => yields_pure hsuits.1
  case h_5 target value htoken =>
    rw [htoken] at hsuits
    split
    · split
      · exact yields_pure trivial
      · have hdefault : target ≠ defaultCaseTarget := by simpa using hsuits.2
        refine yields_bind fun _ => yields_pure ?_
        simp [Statement.StemsFrom, Instruction.jumpTarget?, htoken, Token.jumpTarget?, hdefault]
    · intro before after result hrun
      cases hrun
  case h_6 htoken =>
    rw [htoken] at hsuits
    exact yields_bind fun _ => yields_pure
      ⟨Or.inl hsuits, by simp [Instruction.jumpTarget?, htoken, Token.jumpTarget?]⟩
  case h_7 htoken =>
    rw [htoken] at hsuits
    refine yields_bind fun _ => yields_bind fun _ => ?_
    split
    · exact yields_bind fun _ => yields_pure
        ⟨Or.inr hsuits, by simp [Instruction.jumpTarget?, htoken, Token.jumpTarget?]⟩
    · exact yields_pure ⟨Or.inr hsuits, by simp [Instruction.jumpTarget?, htoken, Token.jumpTarget?]⟩
  case h_8 => exact yields_pure trivial
  case h_11 =>
    split
    · exact yields_pure trivial
    · exact yields_bind fun _ => yields_pure trivial
  all_goals exact yields_bind fun _ => yields_pure trivial

/-!
### Grounded blocks
-/

/-- The block ends at a border, and what made it a loop is in the code. -/
structure OpenBlock.Grounded (body : Body) (cursor : Nat) (b : OpenBlock) : Prop where
  stop : body.Border b.stop
  /-- A `while` ends where its guard leads, and the guard has been passed. A `do` loop ends behind its `until`. -/
  loop : b.kind = .loop → ∃ guard ∈ body.instructions.toList, guard.opcode = .jumpIfNot ∧ guard.position = b.creator ∧
    (guard.token.condTarget? = some b.stop ∧ guard.endPosition ≤ cursor ∨ guard.endPosition = b.stop)

theorem OpenBlock.Grounded.mono {body : Body} {cursor later : Nat} {b : OpenBlock} (h : b.Grounded body cursor)
    (hle : cursor ≤ later) : b.Grounded body later where
  stop := h.stop
  loop hkind := by
    obtain ⟨guard, hguard, hcond, hcreator, hshape⟩ := h.loop hkind
    exact ⟨guard, hguard, hcond, hcreator, hshape.imp_left fun ⟨hstop, hpassed⟩ => ⟨hstop, Nat.le_trans hpassed hle⟩⟩

/-- The begin is that of a `do` loop that the code ends with an `until`. -/
def Marker.BeginsLoop (body : Body) (m : Marker) : Prop :=
  ∃ i ∈ body.instructions.toList, i.isDoUntil = true ∧ i.jumpTarget? = some m.position ∧ m.creator = i.position ∧
    m.blockEnd = i.endPosition

/-- Every marker takes effect at a border, `do` loops begin no earlier than the cursor, and the blocks that are open or
    about to begin are grounded. -/
structure Blocks.Grounded (body : Body) (cursor : Nat) (blocks : Blocks) : Prop where
  places : ∀ m ∈ blocks.pending, body.Border m.position
  loops : ∀ m ∈ blocks.openings, m.deferred = true → cursor ≤ m.position ∧ m.BeginsLoop body
  begins : ∀ m ∈ blocks.openings, m.kind ≠ .switchBreak → m.block.Grounded body cursor
  chain : ∀ b ∈ blocks.chain, b.Grounded body cursor

namespace Blocks.Grounded

variable {body : Body} {cursor : Nat} {blocks : Blocks}

/-- Markers that have taken effect leave the blocks grounded. -/
theorem reconcile {walk : Walk} {later : Nat} (h : walk.blocks.Grounded body cursor) (hle : cursor ≤ later)
    (huptodate : (walk.reconcile later).UpToDate later) : (walk.reconcile later).blocks.Grounded body later where
  places m hm := h.places m (Walk.mem_pending_reconcile hm)
  loops m hm hdeferred := by
    obtain ⟨hmem, hside⟩ := List.mem_filter.1 hm
    have hopening : m ∈ walk.blocks.openings := List.mem_filter.2 ⟨Walk.mem_pending_reconcile hmem, hside⟩
    exact ⟨Nat.le_of_lt (huptodate.ahead m hmem), (h.loops m hopening hdeferred).2⟩
  begins m hm hkind := by
    obtain ⟨hmem, hside⟩ := List.mem_filter.1 hm
    exact (h.begins m (List.mem_filter.2 ⟨Walk.mem_pending_reconcile hmem, hside⟩) hkind).mono hle
  chain b hb := by
    rcases Walk.mem_chain_reconcile hb with hb | ⟨m, hm, hside, hkind, rfl⟩
    · exact (h.chain b hb).mono hle
    · exact (h.begins m (List.mem_filter.2 ⟨hm, by simp [hside]⟩) hkind).mono hle

/-- What lies ahead of an instruction lies at its end or behind it. -/
theorem advance (h : blocks.Grounded body cursor) (hahead : ∀ m ∈ blocks.pending, cursor < m.position) {next : Nat}
    (hle : cursor ≤ next) (hnext : ∀ p, body.Border p → cursor < p → next ≤ p) : blocks.Grounded body next where
  places := h.places
  loops m hm hdeferred := by
    have hmem := List.mem_of_mem_filter hm
    exact ⟨hnext _ (h.places m hmem) (hahead m hmem), (h.loops m hm hdeferred).2⟩
  begins m hm hkind := (h.begins m hm hkind).mono hle
  chain b hb := (h.chain b hb).mono hle

/-- A begin at the cursor is queued. -/
theorem queueBegin (h : blocks.Grounded body cursor) (hcursor : body.Border cursor) (kind : BlockKind)
    (creator stop : Nat) (text : Option String)
    (hblock : kind ≠ .switchBreak → OpenBlock.Grounded body cursor ⟨kind, blocks.nextId, creator, cursor, stop⟩) :
    (blocks.queueBegin kind cursor creator stop text false).2.Grounded body cursor := by
  have hopening : ∀ m ∈ (blocks.queueBegin kind cursor creator stop text false).2.openings,
      m ∈ blocks.openings ∨ m = blocks.newBegin kind cursor creator stop text false := by
    intro m hm
    rw [openings, queueBegin_pending, List.filter_append, List.mem_append] at hm
    exact hm.imp_right fun hnew => List.mem_singleton.1 (List.mem_of_mem_filter hnew)
  constructor
  · intro m hm
    rw [queueBegin_pending, List.mem_append, List.mem_singleton] at hm
    rcases hm with hm | rfl
    · exact h.places m hm
    · exact hcursor
  · intro m hm hdeferred
    rcases hopening m hm with hm | rfl
    · exact h.loops m hm hdeferred
    · cases hdeferred
  · intro m hm hkind
    rcases hopening m hm with hm | rfl
    · exact h.begins m hm hkind
    · exact hblock hkind
  · exact h.chain

/-- An end at a border is queued. -/
theorem queueEnd (h : blocks.Grounded body cursor) (kind : BlockKind) (id : Nat) {position : Nat} (text : Option String)
    (hposition : body.Border position) : (blocks.queueEnd kind id position text).Grounded body cursor := by
  have hopening := openings_queueEnd blocks kind id position text
  constructor
  · intro m hm
    rw [queueEnd_eq, List.mem_append, List.mem_singleton] at hm
    rcases hm with hm | rfl
    · exact h.places m hm
    · exact hposition
  · rw [hopening]
    exact h.loops
  · rw [hopening]
    exact h.begins
  · exact h.chain

/-- Both ends of a block that begins at the cursor are queued. -/
theorem queueBlock (h : blocks.Grounded body cursor) (hcursor : body.Border cursor) (kind : BlockKind)
    (creator stop : Nat) (text : Option String)
    (hblock : OpenBlock.Grounded body cursor ⟨kind, blocks.nextId, creator, cursor, stop⟩) :
    (blocks.queueBlock kind cursor creator stop text).2.Grounded body cursor :=
  (h.queueBegin hcursor kind creator stop text fun _ => hblock).queueEnd kind _ none hblock.stop

end Blocks.Grounded

/-!
### Positions that are compared
-/

namespace Body

variable {body body' : Body} {i i' : Instruction} {p q : Nat}

/-- Positions that fall together only if they are the same compare alike. -/
theorem beq_compact (h : body.compact p = body.compact q → p = q) :
    (body.compact p == body.compact q) = (p == q) := by
  rw [Bool.eq_iff_iff, beq_iff_eq, beq_iff_eq]
  exact ⟨h, fun heq => heq ▸ rfl⟩

/-- Shown instructions do not fall together. -/
theorem position_eq_of_compact (ht : body.IsTiled) {j : Instruction} (hi : i ∈ body.instructions.toList)
    (hshown : i.isShown = true) (hj : j ∈ body.instructions.toList) (hjshown : j.isShown = true)
    (h : body.compact i.position = body.compact j.position) : i.position = j.position := by
  have hforth := (edges_of_mem ht hi).1.le_position_iff ht hj hjshown
  have hback := (edges_of_mem ht hj).1.le_position_iff ht hi hshown
  omega

/-- The advance of an iterator is shown, so it keeps its distance from the end of its `foreach`. -/
theorem compact_add_iteratorNextSize (hr : body.Regular) (hp : body.Edge p) (hq : body.Edge q)
    (h : p + iteratorNextSize = q) :
    body.compact p + iteratorNextSize = body.compact q := by
  rcases Nat.lt_or_ge p body.consumed with hinside | hpast
  · obtain ⟨index, j, hj, rfl⟩ := hp.exists_index hr.tiled hinside
    have hmem := List.mem_of_getElem? hj
    have hbounds := (Consecutive.bounds hr.tiled hmem).2.1
    -- No edge lies inside the instruction, so it is as small as an advance, and hidden instructions are not.
    have hend : j.endPosition = q := by
      unfold iteratorNextSize at h
      rcases hq j hmem with hbefore | hafter
      · omega
      · omega
    have hsize : j.size = iteratorNextSize := by
      unfold Instruction.endPosition at hend
      omega
    have hshown : j.isShown = true := by
      cases hshown : j.isShown with
      | true => rfl
      | false => exact absurd hsize (hr.hiddenSize j hmem hshown)
    rw [← hend, compact_endPosition_of_shown hr.tiled hmem hshown, hsize]
  · rw [compact_of_consumed_le hr.tiled hpast, compact_of_consumed_le hr.tiled (p := q) (by omega)]
    omega

/-- An `until` is a conditional jump. -/
theorem Regular.opcode_of_isDoUntil (h : body.Regular) (hi : i ∈ body.instructions.toList)
    (huntil : i.isDoUntil = true) : i.opcode = .jumpIfNot := by
  obtain ⟨format, hsuits⟩ := h.suits
  exact Instruction.opcode_of_isDoUntil (hsuits i hi) huntil

/-- The other body is what is left of a body whose loops and cases are not affected by what is taken out. -/
structure ThinsTo (body body' : Body) : Prop extends body.StripsTo body' where
  regular : body.Regular
  landed : body.Landed
  loops : body.LoopsApart
  cases : body.CasesApart

/-- A jump that comes to close a loop, or to end where one does, does so already. -/
theorem ThinsTo.closes_of_compact (h : body.ThinsTo body') (hi : i ∈ body.instructions.toList)
    (hjump : i.opcode = .jump) {target : Nat} (htarget : i.jumpTarget? = some target) {loop : OpenBlock}
    (hground : loop.Grounded body i.position) (hkind : loop.kind = .loop)
    (hstop : body.compact i.endPosition = body.compact loop.stop)
    (hback : body.compact target = body.compact loop.creator) : i.endPosition = loop.stop ∧ target = loop.creator := by
  obtain ⟨guard, hguard, hcond, hcreator, ⟨hcondTarget, hpassed⟩ | hend⟩ := hground.loop hkind
  · rw [← hcreator] at hback ⊢
    exact h.loops guard hguard loop.stop hcondTarget i hi hjump target htarget hpassed hstop hback
  · -- Two shown instructions that come to end together are the same, and an `until` is no jump.
    have hshown : i.isShown = true := by simp [Instruction.isShown, hjump, Opcode.isHidden]
    have hguardShown : guard.isShown = true := by simp [Instruction.isShown, hcond, Opcode.isHidden]
    have hforth := (edges_of_mem h.regular.tiled hi).2.endPosition_le_iff h.regular.tiled hguard hguardShown
    have hback := (edges_of_mem h.regular.tiled hguard).2.endPosition_le_iff h.regular.tiled hi hshown
    rw [hend] at hforth hback
    have hsame := h.regular.tiled.eq_of_endPosition hi hguard (by omega)
    rw [hsame, hcond] at hjump
    cases hjump

/-- A shown instruction and what has become of it. -/
structure Counterparts (body : Body) (i i' : Instruction) : Prop where
  mem : i ∈ body.instructions.toList
  shown : i.isShown = true
  renumbered : i.Renumbered body.compact i'

theorem Counterparts.endPosition (h : body.Counterparts i i') (ht : body.IsTiled) :
    i'.endPosition = body.compact i.endPosition :=
  endPosition_of_renumbered ht h.mem h.shown h.renumbered

end Body

/-- The guard of a loop is the same instruction, or another one. -/
theorem OpenBlock.Grounded.beq_creator {body : Body} {b : OpenBlock} {i : Instruction} {cursor : Nat}
    (h : b.Grounded body cursor) (ht : body.IsTiled) (hkind : b.kind = .loop) (hi : i ∈ body.instructions.toList)
    (hshown : i.isShown = true) :
    (body.compact b.creator == body.compact i.position) = (b.creator == i.position) := by
  obtain ⟨guard, hguard, hcond, hposition, -⟩ := h.loop hkind
  have hguardShown : guard.isShown = true := by simp [Instruction.isShown, hcond, Opcode.isHidden]
  apply Body.beq_compact
  rw [← hposition]
  exact Body.position_eq_of_compact ht hguard hguardShown hi hshown

/-!
### Jumps
-/

namespace Walk

section

variable {body body' : Body} {walk walk' : Walk} {i i' : Instruction} {target : Nat}
  (h : body.ThinsTo body') (hblocks : walk'.blocks = walk.blocks.relocate body.compact)
  (hchain : ∀ b ∈ walk.blocks.chain, b.Grounded body i.position) (hi : body.Counterparts i i')
  (hjump : i.opcode = .jump)
  (htarget : i.jumpTarget? = some target) (htells : walk.Tells body i target)

include h hblocks hchain hi hjump htarget

theorem closesLoop_renumbered : walk'.closesLoop i' (body.compact target) = walk.closesLoop i target := by
  unfold closesLoop
  rw [hblocks, Blocks.innermostWhere?_relocate]
  cases hfound : walk.blocks.innermostWhere? (· == .loop) with
  | none => rfl
  | some loop =>
      have hkind : loop.kind = .loop := by simpa using List.find?_some hfound
      have hground := hchain loop (List.mem_of_find?_eq_some hfound)
      simp only [Option.map_some, Option.any_some, OpenBlock.relocate, hi.endPosition h.regular.tiled]
      rw [Bool.eq_iff_iff, Bool.and_eq_true, Bool.and_eq_true, beq_iff_eq, beq_iff_eq, beq_iff_eq, beq_iff_eq]
      constructor
      · rintro ⟨hstop, hback⟩
        obtain ⟨hstop, hback⟩ := h.closes_of_compact hi.mem hjump htarget hground hkind hstop.symm hback.symm
        exact ⟨hstop.symm, hback.symm⟩
      · rintro ⟨hstop, hback⟩
        exact ⟨congrArg body.compact hstop, congrArg body.compact hback⟩

include htells

omit h hchain hi hjump htarget in
theorem isBreak_renumbered :
    isBreak (body.compact target) ((walk'.blocks.innermostWhere? (·.isBreakable)).map (·.stop)) =
      isBreak target ((walk.blocks.innermostWhere? (·.isBreakable)).map (·.stop)) := by
  rw [hblocks, Blocks.innermostWhere?_relocate]
  cases hfound : walk.blocks.innermostWhere? (·.isBreakable) with
  | none => rfl
  | some block =>
      have hsame := Body.beq_compact fun heq => (htells.breaks block hfound heq.symm).symm
      simpa [isBreak, OpenBlock.relocate] using hsame

theorem continues_renumbered : walk'.continues i' (body.compact target) = walk.continues i target := by
  unfold continues
  rw [hblocks, Blocks.innermostWhere?_relocate]
  cases hfound : walk.blocks.innermostWhere? (·.isBreakable) with
  | none => rfl
  | some block =>
      have hground := hchain block (List.mem_of_find?_eq_some hfound)
      simp only [Option.map_some, Option.any_some, OpenBlock.relocate]
      cases hkind : block.kind with
      | forEach =>
          have hlands := h.landed.border_of_target h.regular.tiled hi.mem htarget
          simp only [isForEachContinue]
          rw [Bool.eq_iff_iff, beq_iff_eq, beq_iff_eq]
          exact ⟨htells.advances block hfound hkind,
            Body.compact_add_iteratorNextSize h.regular hlands.edge hground.stop.edge⟩
      | loop =>
          have hsize := h.regular.jumpSize i hi.mem hjump
          have hend : i.position + jumpSize = i.endPosition := by rw [← hsize]; rfl
          have hend' : i'.position + jumpSize = body.compact i.endPosition := by
            rw [← hi.endPosition h.regular.tiled, ← hsize, ← hi.renumbered.size]
            rfl
          have hback : (body.compact target == body.compact block.creator) = (target == block.creator) :=
            Body.beq_compact (htells.continues block hfound hkind)
          simp only [isLoopContinue, hend, hend', hback]
          -- Where the loop ends matters only to a jump to its guard.
          cases hcreator : target == block.creator with
          | false => rfl
          | true =>
              have hclose : (body.compact i.endPosition == body.compact block.stop) =
                  (i.endPosition == block.stop) := by
                apply Body.beq_compact
                intro hstop
                have hsame := congrArg body.compact (beq_iff_eq.1 hcreator)
                exact (h.closes_of_compact hi.mem hjump htarget hground hkind hstop hsame).1
              rw [bne, bne, hclose]
      | _ => rfl

/-- A jump that is no `break` stays an `else`, or stays none. -/
theorem entersElse_renumbered
    (hbreak : isBreak target ((walk.blocks.innermostWhere? (·.isBreakable)).map (·.stop)) = false) :
    walk'.entersElse i' (body.compact target) = walk.entersElse i target := by
  unfold entersElse
  rw [continues_renumbered h hblocks hchain hi hjump htarget htells, hblocks, Blocks.innermost?_relocate]
  cases hinner : walk.blocks.innermost? with
  | none => rfl
  | some top =>
      simp only [Option.map_some, Option.any_some, OpenBlock.relocate, Blocks.pendingEnd?_relocate]
      cases hkind : top.kind == .ifBlock with
      | false => rfl
      | true =>
          cases hending : walk.blocks.pendingEnd? top.id with
          | none => simp [isElse]
          | some ending =>
              obtain ⟨hlast, hfilled, halone⟩ := htells.elses hbreak top hinner (by simpa using hkind) ending hending
              have hmono := body.compact_mono
              simp only [isElse, Option.map_some, Marker.relocate, hi.endPosition h.regular.tiled,
                hi.renumbered.position, Option.some_beq_some, Bool.true_and]
              rw [Bool.eq_iff_iff]
              simp only [Bool.and_eq_true, Bool.not_eq_true', ← Bool.not_eq_true, beq_iff_eq, decide_eq_true_eq]
              constructor
              · rintro ⟨hcompany, hend, hahead⟩
                refine ⟨?_, ?_, ?_⟩
                · rintro ⟨hcontinue, hstart⟩
                  exact hcompany ⟨hcontinue, congrArg body.compact hstart⟩
                · exact (hlast hend.symm hahead hcompany).symm
                · exact hmono.reflect_lt hahead
              · rintro ⟨hcompany, hend, hahead⟩
                refine ⟨?_, congrArg body.compact hend, ?_⟩
                · rintro ⟨hcontinue, hstart⟩
                  exact hcompany ⟨hcontinue, halone hend.symm hahead hcontinue hstart⟩
                · exact hfilled hend.symm hahead hcompany

end

/-!
### Statements
-/

/-- The loop that a jump back ends is the same one. -/
theorem findByCreator?_renumbered {body : Body} {blocks : Blocks} {i : Instruction} {cursor : Nat}
    (ht : body.IsTiled) (hgrounded : blocks.Grounded body cursor) (hi : i ∈ body.instructions.toList)
    (hshown : i.isShown = true) :
    (blocks.relocate body.compact).findByCreator? .loop (body.compact i.position) =
      blocks.findByCreator? .loop i.position := by
  have hchain : ((blocks.relocate body.compact).chain.reverse.find? fun b =>
        b.kind == .loop && b.creator == body.compact i.position) =
      (blocks.chain.reverse.find? fun b => b.kind == .loop && b.creator == i.position).map
        (·.relocate body.compact) := by
    rw [Blocks.relocate, ← List.map_reverse, List.find?_map]
    apply congrArg (Option.map _)
    apply List.find?_congr
    intro b hb
    cases hkind : b.kind == .loop with
    | false => simp only [Function.comp_apply, OpenBlock.relocate, hkind, Bool.false_and]
    | true =>
        have hground := hgrounded.chain b (List.mem_reverse.1 hb)
        have hsame := hground.beq_creator ht (by simpa using hkind) hi hshown
        simp only [Function.comp_apply, OpenBlock.relocate, hkind, hsame]
  have hpending : ((blocks.relocate body.compact).pending.find? fun m =>
        m.kind == .loop && m.creator == body.compact i.position && m.side == .opening) =
      (blocks.pending.find? fun m => m.kind == .loop && m.creator == i.position && m.side == .opening).map
        (·.relocate body.compact) := by
    rw [Blocks.relocate, List.find?_map]
    apply congrArg (Option.map _)
    apply List.find?_congr
    intro m hm
    cases hkind : m.kind == .loop with
    | false => simp only [Function.comp_apply, Marker.relocate, hkind, Bool.false_and]
    | true =>
        cases hside : m.side == .opening with
        | false => simp only [Function.comp_apply, Marker.relocate, hside, Bool.and_false]
        | true =>
            have hloop : m.kind = .loop := by simpa using hkind
            have hground := hgrounded.begins m (List.mem_filter.2 ⟨hm, hside⟩) (by rw [hloop]; decide)
            have hsame : (body.compact m.creator == body.compact i.position) = (m.creator == i.position) :=
              hground.beq_creator ht hloop hi hshown
            simp only [Function.comp_apply, Marker.relocate, hkind, hside, hsame]
  rw [Blocks.findByCreator?, Blocks.findByCreator?, hchain, hpending, Option.map_map, Option.map_map]
  rfl

/-- The statement has the same words and queues the same markers, or it is a `goto` to the same place. -/
inductive ActsAlike (body : Body) (i i' : Instruction) (walk walk' : Walk) :
    Wording × Walk → Wording × Walk → Prop where
  | same {wording : Wording} {next next' : Walk} (blocks : Blocks) (hnext : next = { walk with blocks })
      (hnext' : next' = { walk' with blocks := blocks.relocate body.compact }) :
      ActsAlike body i i' walk walk' (wording, next) (wording, next')
  | goto (lead : String) {target : Nat} (htarget : body.Landing target) :
      ActsAlike body i i' walk walk' (walk.jumpTo i lead target) (walk'.jumpTo i' lead (body.compact target))

/-- A `switch` reaches no further than a border. -/
theorem border_limit {body : Body} {blocks : Blocks} {cursor : Nat} (ht : body.IsTiled)
    (hchain : ∀ b ∈ blocks.chain, b.Grounded body cursor) :
    body.Border ((blocks.innermost?.map (·.stop)).getD body.codeEnd) := by
  cases hinner : blocks.innermost? with
  | none => exact Body.border_codeEnd ht
  | some top => exact (hchain top (List.mem_of_mem_head? hinner)).stop

section

variable {body body' : Body} {walk walk' : Walk} {i i' : Instruction}
  (h : body.ThinsTo body') (hblocks : walk'.blocks = walk.blocks.relocate body.compact)
  (hi : body.Counterparts i i')

include hblocks

theorem actsAlike_idle (wording : Wording) : ActsAlike body i i' walk walk' (wording, walk) (wording, walk') := by
  apply ActsAlike.same walk.blocks rfl
  rw [← hblocks]

include h hi

theorem actsAlike_queueBlock (wording : Wording) (kind : BlockKind) (stop : Nat) (header : Option String) :
    ActsAlike body i i' walk walk' (wording, walk.queueBlock kind i stop header)
      (wording, walk'.queueBlock kind i' (body.compact stop) header) := by
  apply ActsAlike.same _ rfl
  rw [queueBlock, hblocks, hi.endPosition h.regular.tiled, hi.renumbered.position, Blocks.queueBlock_relocate]

theorem actsAlike_queueBegin (wording : Wording) (kind : BlockKind) (stop : Nat) (header : Option String) :
    ActsAlike body i i' walk walk' (wording, walk.queueBegin kind i stop header)
      (wording, walk'.queueBegin kind i' (body.compact stop) header) := by
  apply ActsAlike.same _ rfl
  rw [queueBegin, hblocks, hi.endPosition h.regular.tiled, hi.renumbered.position, Blocks.queueBegin_relocate]

theorem actsAlike_queueEnd (wording : Wording) (kind : BlockKind) (id : Nat) (footer : Option String) :
    ActsAlike body i i' walk walk' (wording, walk.queueEnd kind id i footer)
      (wording, walk'.queueEnd kind id i' footer) := by
  apply ActsAlike.same _ rfl
  rw [queueEnd, hblocks, hi.endPosition h.regular.tiled, Blocks.queueEnd_relocate]

theorem branch_actsAlike {cursor target : Nat} (hgrounded : walk.blocks.Grounded body cursor) (condition : String)
    (hcond : i.opcode = .jumpIfNot) (htarget : i.token.condTarget? = some target) :
    ActsAlike body i i' walk walk' (walk.branch body i target condition)
      (walk'.branch body' i' (body.compact target) condition) := by
  have huntil := Body.isDoUntil_renumbered h.regular h.landed hi.mem hi.renumbered
  have hguard := Body.isWhileGuard_renumbered h.regular h.loops h.toStripsTo hi.mem hi.renumbered hcond
  have hfind : walk'.blocks.findByCreator? .loop i'.position = walk.blocks.findByCreator? .loop i.position := by
    rw [hblocks, hi.renumbered.position, findByCreator?_renumbered h.regular.tiled hgrounded hi.mem hi.shown]
  unfold branch
  rw [huntil, hguard, hfind]
  split
  · split
    · exact actsAlike_queueEnd h hblocks hi ..
    · exact .goto _ ⟨i, hi.mem, Or.inl (Token.jumpTarget?_of_condTarget? htarget)⟩
  · split
    · exact actsAlike_queueBlock h hblocks hi ..
    · exact actsAlike_queueBlock h hblocks hi ..

theorem jump_actsAlike {target : Nat} (hgrounded : walk.blocks.Grounded body i.position) (hjump : i.opcode = .jump)
    (htarget : i.jumpTarget? = some target) (htells : walk.Tells body i target) :
    ActsAlike body i i' walk walk' (walk.jump i target) (walk'.jump i' (body.compact target)) := by
  unfold jump
  rw [closesLoop_renumbered h hblocks hgrounded.chain hi hjump htarget, isBreak_renumbered hblocks htells]
  split
  · exact actsAlike_idle hblocks _
  · split
    · rw [hi.endPosition h.regular.tiled]
      exact actsAlike_queueBegin h hblocks hi ..
    · rename_i hbreak
      rw [entersElse_renumbered h hblocks hgrounded.chain hi hjump htarget htells (Bool.eq_false_iff.2 hbreak),
        continues_renumbered h hblocks hgrounded.chain hi hjump htarget htells]
      split
      · exact actsAlike_queueBlock h hblocks hi ..
      · split
        · exact actsAlike_idle hblocks _
        · exact .goto "" ⟨i, hi.mem, Or.inl htarget⟩

/-- A `switch` reaches as far. -/
theorem switch_actsAlike {index cursor : Nat} (hchain : ∀ b ∈ walk.blocks.chain, b.Grounded body cursor)
    (hindex : body.instructions.toList[index]? = some i) (hswitch : i.opcode = .switch) (value : String) :
    ActsAlike body i i' walk walk' ({}, walk.switch body index i value)
      ({}, walk'.switch body' (body.rank index) i' value) := by
  have hlimit : ((walk'.blocks.innermost?.map (·.stop)).getD body'.codeEnd) =
      body.compact ((walk.blocks.innermost?.map (·.stop)).getD body.codeEnd) := by
    rw [hblocks, Blocks.innermost?_relocate, h.codeEnd]
    cases walk.blocks.innermost? <;> rfl
  have hborder := border_limit h.regular.tiled hchain
  unfold switch
  dsimp only
  rw [hlimit, (Body.switchEnd_renumbered h.regular h.landed h.cases h.toStripsTo hborder hindex hswitch).1]
  exact actsAlike_queueBlock h hblocks hi ..

/-- What a statement does is the same but for the positions. -/
theorem perform_actsAlike {index : Nat} (hprevious : walk'.previous = walk.previous)
    (hgrounded : walk.blocks.Grounded body i.position)
    (htells : i.opcode = .jump → ∀ target ∈ i.jumpTarget?, walk.Tells body i target)
    (hindex : body.instructions.toList[index]? = some i) {statement : Statement} (hstems : statement.StemsFrom i) :
    ActsAlike body i i' walk walk' (walk.perform body index i statement)
      (walk'.perform body' (body.rank index) i' (statement.retarget body.compact)) := by
  cases statement with
  | plain text terminated => exact actsAlike_idle hblocks _
  | remark text => exact actsAlike_idle hblocks _
  | branch target condition => exact branch_actsAlike h hblocks hi hgrounded condition hstems.1 hstems.2
  | jump target => exact jump_actsAlike h hblocks hi hgrounded hstems.1 hstems.2 (htells hstems.1 target hstems.2)
  | editorOnly target => exact actsAlike_queueBlock h hblocks hi ..
  | switch value => exact switch_actsAlike h hblocks hi hgrounded.chain hindex hstems value
  | caseArm target value => exact actsAlike_queueBlock h hblocks hi ..
  | defaultArm =>
      have hstop : ((walk'.blocks.innermostWhere? (· == .switch)).map (·.stop)).getD 0 =
          body.compact (((walk.blocks.innermostWhere? (· == .switch)).map (·.stop)).getD 0) := by
        rw [hblocks, Blocks.innermostWhere?_relocate]
        cases walk.blocks.innermostWhere? (· == .switch) with
        | none => exact (Nat.le_zero.1 (Body.compact_le h.regular.tiled 0)).symm
        | some block => rfl
      simp only [perform, Statement.retarget, hstop]
      exact actsAlike_queueBlock h hblocks hi ..
  | forEach header stop => exact actsAlike_queueBegin h hblocks hi ..
  | iteratorPop =>
      simp only [perform, Statement.retarget, iteratorPop, hprevious, hblocks, Blocks.innermostWhere?_relocate]
      split
      · cases walk.blocks.innermostWhere? (· == .forEach) with
        | none => exact actsAlike_idle hblocks _
        | some block => exact actsAlike_queueEnd h hblocks hi ..
      · exact actsAlike_idle hblocks _
  | silent => exact actsAlike_idle hblocks _

end

/-!
### What statements queue
-/

section

variable {body body' : Body} {walk : Walk} {i : Instruction} {target : Nat} (h : body.ThinsTo body')
  (hgrounded : walk.blocks.Grounded body i.endPosition) (hi : i ∈ body.instructions.toList)

include h hgrounded hi

theorem branch_grounded (condition : String) (hcond : i.opcode = .jumpIfNot)
    (htarget : i.token.condTarget? = some target) :
    (walk.branch body i target condition).2.blocks.Grounded body i.endPosition := by
  have hend := (Body.borders_of_mem h.regular.tiled hi).2
  have hstop := h.landed.border_of_target h.regular.tiled hi (Token.jumpTarget?_of_condTarget? htarget)
  unfold branch
  split
  · split
    · exact hgrounded.queueEnd _ _ _ hend
    · exact hgrounded
  · split
    · apply hgrounded.queueBlock hend
      exact ⟨hstop, fun _ => ⟨i, hi, hcond, rfl, Or.inl ⟨htarget, Nat.le_refl _⟩⟩⟩
    · exact hgrounded.queueBlock hend _ _ _ _ ⟨hstop, fun h => by cases h⟩

theorem jump_grounded (htarget : i.jumpTarget? = some target) :
    (walk.jump i target).2.blocks.Grounded body i.endPosition := by
  have hend := (Body.borders_of_mem h.regular.tiled hi).2
  have hstop := h.landed.border_of_target h.regular.tiled hi htarget
  unfold jump
  split
  · exact hgrounded
  · split
    · exact hgrounded.queueBegin hend _ _ _ _ fun hkind => absurd rfl hkind
    · split
      · exact hgrounded.queueBlock hend _ _ _ _ ⟨hstop, fun h => by cases h⟩
      · split <;> exact hgrounded

theorem switch_grounded {index : Nat} (hindex : body.instructions.toList[index]? = some i)
    (hswitch : i.opcode = .switch) (value : String) :
    (walk.switch body index i value).blocks.Grounded body i.endPosition := by
  have hlimit := border_limit h.regular.tiled hgrounded.chain
  have hstop := (Body.switchEnd_renumbered h.regular h.landed h.cases h.toStripsTo hlimit hindex hswitch).2
  exact hgrounded.queueBlock (Body.borders_of_mem h.regular.tiled hi).2 _ _ _ _ ⟨hstop, fun h => by cases h⟩

/-- A statement leaves the blocks grounded. -/
theorem perform_grounded {index : Nat} (hindex : body.instructions.toList[index]? = some i) {statement : Statement}
    (hstems : statement.StemsFrom i) (harm : statement.isArm = true → walk.blocks.isInside .switch = true) :
    (walk.perform body index i statement).2.blocks.Grounded body i.endPosition := by
  have hend := (Body.borders_of_mem h.regular.tiled hi).2
  cases statement with
  | plain text terminated => exact hgrounded
  | remark text => exact hgrounded
  | branch target condition => exact branch_grounded h hgrounded hi condition hstems.1 hstems.2
  | jump target => exact jump_grounded h hgrounded hi hstems.2
  | editorOnly target =>
      apply hgrounded.queueBlock hend
      exact ⟨h.landed.border_of_target h.regular.tiled hi hstems.2, fun h => by cases h⟩
  | switch value => exact switch_grounded h hgrounded hi hindex hstems value
  | caseArm target value =>
      apply hgrounded.queueBlock hend
      exact ⟨h.landed.border_of_target h.regular.tiled hi hstems, fun h => by cases h⟩
  | defaultArm =>
      apply hgrounded.queueBlock hend
      refine ⟨?_, fun h => by cases h⟩
      -- A `default` stands in a `switch` that is open, and ends where the `switch` does.
      obtain ⟨block, hmem, hkind⟩ := List.any_eq_true.1 (harm rfl)
      cases hfound : walk.blocks.innermostWhere? (· == .switch) with
      | none => exact absurd hkind (List.find?_eq_none.1 hfound block hmem)
      | some inner => exact (hgrounded.chain inner (List.mem_of_find?_eq_some hfound)).stop
  | forEach header stop =>
      apply hgrounded.queueBegin hend
      exact fun _ => ⟨h.landed.border_of_target h.regular.tiled hi hstems.2, fun h => by cases h⟩
  | iteratorPop =>
      simp only [perform, iteratorPop]
      split
      · split
        · exact hgrounded.queueEnd _ _ _ hend
        · exact hgrounded
      · exact hgrounded
  | silent => exact hgrounded

end

end Walk

end ScriptBytecode
