/-
Module: ScriptBytecode.Proofs.Walk.ForEach
Purpose: How long a `foreach` stays open. Other blocks are closed by position; the end of a `foreach` is queued only
  by the pop of its iterator, and is due at once. Between its begin and that pop nothing takes it out of the chain of
  open blocks but the end of a block around it. Main statement: in every walk over a decoded body, a `foreach` leaves
  the chain at its own pop, with a block around it, or when the walk ends, and at no other time.
Main exports: Body.previousOpcode?, Walk.closeTop_iterate, Walk.Tended.mem_closeDue_iff, Walk.end_of_utter,
  Setting.Pops, Setting.ForcedOut, Setting.KeepsForEach, walk_keepsForEach
-/
import ScriptBytecode.Proofs.Walk.Closing
import ScriptBytecode.Proofs.Walk.Containment
import ScriptBytecode.Proofs.Walk.Placement

namespace ScriptBytecode

/-!
### Which blocks close

Closing goes from the innermost block outward, and stops behind the outermost block whose end is due. A block therefore
closes if its own end is due, or that of a block around it.
-/

/-- The event says that a block closes. -/
def OpenBlock.ClosedBy (b : OpenBlock) (e : Event) : Prop := ∃ footer, e = .closed b.kind b.id footer

namespace Blocks

/-- Blocks inside one that has to close have to close as well. -/
theorem lt_depthTo_append (due : Nat → Bool) (inner outer : List OpenBlock) :
    inner.length < depthTo due (inner ++ outer) ↔ 0 < depthTo due outer := by
  induction inner with
  | nil => rfl
  | cons b inner ih =>
      rw [List.cons_append, List.length_cons, ← ih, depthTo]
      split
      · exact Nat.succ_lt_succ_iff
      · rename_i hidle
        simp only [Bool.or_eq_true, decide_eq_true_eq, not_or] at hidle
        omega

/-- A block of a chain is still there when others have been taken off, unless it has been taken off itself. -/
theorem mem_drop_iff {inner outer : List OpenBlock} {b : OpenBlock} (hnodup : ((inner ++ b :: outer).map (·.id)).Nodup)
    (count : Nat) : b ∈ (inner ++ b :: outer).drop count ↔ count ≤ inner.length := by
  constructor
  · intro hb
    by_contra hlt
    have hpast : (inner ++ b :: outer).drop count = outer.drop (count - inner.length - 1) := by
      rw [List.drop_append, List.drop_eq_nil_of_le (by omega), List.nil_append,
        show count - inner.length = count - inner.length - 1 + 1 by omega, List.drop_succ_cons]
      rfl
    rw [List.map_append, List.map_cons] at hnodup
    have hfresh := (List.nodup_cons.1 hnodup.of_append_right).1
    rw [hpast] at hb
    exact hfresh (List.mem_map_of_mem (List.mem_of_mem_drop hb))
  · intro hle
    rw [List.drop_append_of_le_length hle]
    simp

end Blocks

namespace Walk

variable {walk : Walk} {b : OpenBlock}

theorem closeTop_of_cons {top : OpenBlock} {outer : List OpenBlock} (hchain : walk.blocks.chain = top :: outer) :
    walk.closeTop.blocks.chain = outer ∧
      ∃ e, top.ClosedBy e ∧ walk.closeTop.events.toList = walk.events.toList ++ [e] := by
  have hcancelled : (walk.blocks.cancelEnd top.id).2.chain = top :: outer := hchain
  rw [closeTop_eq hchain]
  constructor
  · show (((walk.blocks.cancelEnd top.id).2.leave top.id).2).chain = outer
    rw [Blocks.leave_innermost hcancelled]
  · exact ⟨_, ⟨_, rfl⟩, Array.toList_push⟩

/-- Closing the innermost block a number of times takes as many blocks off the chain, one event each. -/
theorem closeTop_iterate (walk : Walk) (count : Nat) :
    (closeTop^[count] walk).blocks.chain = walk.blocks.chain.drop count ∧
      ∃ closings, (closeTop^[count] walk).events.toList = walk.events.toList ++ closings ∧
        List.Forall₂ OpenBlock.ClosedBy (walk.blocks.chain.take count) closings := by
  induction count generalizing walk with
  | zero => exact ⟨rfl, [], (List.append_nil _).symm, List.Forall₂.nil⟩
  | succ count ih =>
      rw [Function.iterate_succ_apply]
      cases hopen : walk.blocks.chain with
      | nil =>
          have hidle : walk.closeTop = walk := by simp [closeTop, Blocks.innermost?, hopen]
          obtain ⟨hchain, closings, hevents, hclosings⟩ := ih walk
          rw [hopen, List.take_nil] at hclosings
          rw [hopen, List.drop_nil] at hchain
          rw [hidle]
          exact ⟨hchain, closings, hevents, hclosings⟩
      | cons top outer =>
          obtain ⟨houter, e, hclosed, hfirst⟩ := closeTop_of_cons hopen
          obtain ⟨hchain, closings, hevents, hclosings⟩ := ih walk.closeTop
          rw [houter] at hchain hclosings
          refine ⟨hchain, e :: closings, ?_, hclosings.cons hclosed⟩
          rw [hevents, hfirst, List.append_assoc]
          rfl

/-- When what is due closes, a block closes if its end is due, or that of a block around it, and stays open otherwise.
    -/
theorem Tended.mem_closeDue_iff {cursor : Nat} (h : walk.Tended cursor) {horizon : Horizon}
    {inner outer : List OpenBlock} (hchain : walk.blocks.chain = inner ++ b :: outer) :
    b ∈ (walk.closeDue horizon walk.blocks.chain.length).blocks.chain ↔
      ¬(walk.blocks.endsBy horizon b.id = true ∨ ∃ c ∈ outer, walk.blocks.endsBy horizon c.id = true) := by
  have hnodup := h.numbered.chain_nodup
  rw [h.closeDue_eq_iterate horizon (Nat.le_refl _), (closeTop_iterate ..).1, dueDepth]
  rw [hchain] at hnodup ⊢
  rw [Blocks.mem_drop_iff hnodup, ← Nat.not_lt, Blocks.lt_depthTo_append, Blocks.depthTo_pos_iff]
  simp only [List.mem_cons, exists_eq_or_imp]

/-!
### Which blocks open
-/

/-- A begin that takes effect takes no block off the chain but an `if`. -/
theorem mem_enter_of_mem (hb : b ∈ walk.blocks.chain) (hkind : b.kind ≠ .ifBlock) (marker : Marker) :
    b ∈ (walk.enter marker).blocks.chain := by
  unfold enter
  split
  · exact hb
  · apply List.mem_cons_of_mem
    unfold dropIf
    split
    · rename_i top htop
      split
      · rename_i hif
        obtain ⟨outer, hchain⟩ := List.head?_eq_some_iff.1 htop
        have hcancelled : (walk.blocks.cancelEnd top.id).2.chain = top :: outer := hchain
        dsimp only
        rw [Blocks.leave_innermost hcancelled]
        rw [hchain] at hb
        exact (List.mem_cons.1 hb).resolve_left fun heq => hkind (heq ▸ hif)
      · exact hb
    · exact hb
  · exact List.mem_cons_of_mem _ hb

theorem mem_openDue_of_mem (hb : b ∈ walk.blocks.chain) (hkind : b.kind ≠ .ifBlock) (horizon : Horizon)
    (deferred : Bool) : b ∈ (walk.openDue horizon deferred).blocks.chain := by
  have hfold : ∀ (markers : List Marker) (walk : Walk), b ∈ walk.blocks.chain →
      b ∈ (markers.foldl enter walk).blocks.chain := by
    intro markers
    induction markers with
    | nil => exact fun walk hb => hb
    | cons marker rest ih => exact fun walk hb => ih _ (mem_enter_of_mem hb hkind marker)
  rw [openDue_eq]
  apply hfold
  rw [Blocks.takeBegins_rest]
  exact hb

/-- Between instructions only loops open. -/
theorem Settled.mem_openDue_iff (h : walk.Settled) (hkind : b.kind = .forEach) (horizon : Horizon) (deferred : Bool) :
    b ∈ (walk.openDue horizon deferred).blocks.chain ↔ b ∈ walk.blocks.chain := by
  constructor
  · intro hb
    rcases mem_chain_openDue hb with hb | ⟨m, hm, hside, -, rfl⟩
    · exact hb
    · have hloop := (h.begins m (List.mem_filter.2 ⟨hm, by rw [hside]; rfl⟩)).2
      rw [Marker.block, hloop] at hkind
      cases hkind
  · exact fun hb => mem_openDue_of_mem hb (by rw [hkind]; decide) horizon deferred

/-!
### Which ends are queued
-/

theorem end_of_queueBlock {blocks : Blocks} {kind : BlockKind} {position creator stop : Nat} {header : Option String}
    {m : Marker} (hm : m ∈ (blocks.queueBlock kind position creator stop header).2.pending)
    (hside : m.side = .closing) : m ∈ blocks.pending ∨ m.kind = kind := by
  rcases end_of_queueEnd hm with hm | rfl
  · exact Or.inl (end_of_queueBegin hm hside)
  · exact Or.inr rfl

/-- The end of a `foreach` is queued by a pop right behind an advance, for the innermost `foreach`. -/
def QueuesEnd (walk : Walk) (i : Instruction) (m : Marker) : Prop :=
  walk.previous = some .iteratorNext ∧ ∃ b, walk.blocks.innermostWhere? (· == .forEach) = some b ∧
    m = walk.blocks.newEnd .forEach b.id i.endPosition none

theorem end_of_perform {body : Body} {index : Nat} {i : Instruction} {statement : Statement} {m : Marker}
    (hm : m ∈ (walk.perform body index i statement).2.blocks.pending) (hside : m.side = .closing)
    (hkind : m.kind = .forEach) :
    m ∈ walk.blocks.pending ∨ statement = .iteratorPop ∧ walk.QueuesEnd i m := by
  have hblock : ∀ {kind : BlockKind} {stop : Nat} {header : Option String}, kind ≠ .forEach →
      m ∈ (walk.queueBlock kind i stop header).blocks.pending → m ∈ walk.blocks.pending := by
    intro kind stop header hother hm
    exact (end_of_queueBlock hm hside).resolve_right fun heq => hother (heq.symm.trans hkind)
  cases statement with
  | plain | remark | silent => exact Or.inl hm
  | editorOnly target => exact Or.inl (hblock (by decide) hm)
  | switch value => exact Or.inl (hblock (by decide) hm)
  | caseArm target value => exact Or.inl (hblock (by decide) hm)
  | defaultArm => exact Or.inl (hblock (by decide) hm)
  | forEach header stop => exact Or.inl (end_of_queueBegin hm hside)
  | branch target condition =>
      left
      change m ∈ (walk.branch body i target condition).2.blocks.pending at hm
      unfold branch at hm
      split at hm
      · split at hm
        · rcases end_of_queueEnd hm with hm | rfl
          · exact hm
          · cases hkind
        · exact hm
      · split at hm
        · exact hblock (by decide) hm
        · exact hblock (by decide) hm
  | jump target =>
      left
      change m ∈ (walk.jump i target).2.blocks.pending at hm
      unfold jump at hm
      split at hm
      · exact hm
      · split at hm
        · exact end_of_queueBegin hm hside
        · split at hm
          · exact hblock (by decide) hm
          · split at hm
            · exact hm
            · exact hm
  | iteratorPop =>
      change m ∈ (walk.iteratorPop i).blocks.pending at hm
      unfold iteratorPop at hm
      split at hm
      · rename_i hprevious
        split at hm
        · rename_i block hinner
          exact (end_of_queueEnd hm).imp_right fun heq => ⟨rfl, hprevious, block, hinner, heq⟩
        · exact Or.inl hm
      · exact Or.inl hm

end Walk

open Render in
/-- What pops an iterator is an instruction of that kind. -/
theorem Instruction.statement_pops (words : Vocabulary) (scope : Scope) (insideSwitch : Bool) (i : Instruction) :
    (i.statement words scope insideSwitch).Yields fun statement =>
      statement = .iteratorPop → i.opcode = .iteratorPop := by
  unfold Instruction.statement
  split
  case h_2 | h_3 | h_8 => exact yields_pure fun h => by cases h
  case h_5 =>
    split
    · split
      · exact yields_pure fun h => by cases h
      · exact yields_bind fun _ => yields_pure fun h => by cases h
    · intro before after result hrun
      cases hrun
  case h_7 =>
    refine yields_bind fun _ => yields_bind fun _ => ?_
    split
    · exact yields_bind fun _ => yields_pure fun h => by cases h
    · exact yields_pure fun h => by cases h
  case h_11 =>
    split
    · rename_i hpop
      exact yields_pure fun _ => hpop
    · exact yields_bind fun _ => yields_pure fun h => by cases h
  all_goals exact yields_bind fun _ => yields_pure fun h => by cases h

namespace Walk

variable {walk : Walk} {b : OpenBlock} {setting : Setting} {i : Instruction} {index : Nat}

/-- No other instruction queues the end of a `foreach`. -/
theorem end_of_utter {m : Marker} (hm : m ∈ (walk.utter setting i index).blocks.pending) (hside : m.side = .closing)
    (hkind : m.kind = .forEach) : m ∈ walk.blocks.pending ∨ i.opcode = .iteratorPop ∧ walk.QueuesEnd i m := by
  have hblocks := walk.writeLabel_blocks i.position
  have hprevious := walk.writeLabel_previous i.position
  unfold utter at hm
  dsimp only at hm
  split at hm
  · exact Or.inl (hblocks ▸ hm)
  · split at hm
    · exact Or.inl (hblocks ▸ hm)
    · change m ∈ ((walk.writeLabel i.position).write setting index i).blocks.pending at hm
      unfold write at hm
      dsimp only at hm
      split at hm
      · rename_i statement remark hrun
        rcases end_of_perform hm hside hkind with hm | ⟨hpop, hqueues⟩
        · exact Or.inl (hblocks ▸ hm)
        · rw [QueuesEnd, hblocks, hprevious] at hqueues
          exact Or.inr ⟨i.statement_pops _ _ _ _ _ _ hrun hpop, hqueues⟩
      · exact Or.inl (hblocks ▸ hm)

/-- A pop right behind an advance queues the end of the innermost `foreach`. -/
theorem utter_blocks_of_pop {format : Format} (hsuits : i.token.Suits format i.opcode)
    (hopcode : i.opcode = .iteratorPop) (hi : setting.body.instructions[index]? = some i)
    (hprevious : walk.previous = some .iteratorNext)
    (hinner : walk.blocks.innermostWhere? (· == .forEach) = some b) :
    (walk.utter setting i index).blocks = walk.blocks.queueEnd .forEach b.id i.endPosition none := by
  have htoken : i.token = .noOperands := hsuits.eq_noOperands (Or.inr hopcode)
  have hshown : i.opcode.isHidden = false := by rw [hopcode]; rfl
  have himplicit : setting.body.isImplicitReturn index = false := by simp [Body.isImplicitReturn, hi, htoken]
  have hstatement : ∀ insideSwitch, (i.statement setting.words setting.scope insideSwitch).run none =
      .ok .iteratorPop none := by
    intro insideSwitch
    rw [Instruction.statement, htoken, hopcode]
    rfl
  have hblocks := walk.writeLabel_blocks i.position
  rw [← hblocks] at hinner ⊢
  rw [← walk.writeLabel_previous i.position] at hprevious
  simp only [utter, hshown, himplicit, Bool.and_false, Bool.false_eq_true, if_false]
  simp only [write, hstatement]
  show ((walk.writeLabel i.position).iteratorPop i).blocks = _
  simp only [iteratorPop, hprevious, if_true, hinner]
  rfl

theorem step_previous (walk : Walk) (setting : Setting) (i : Instruction) (index : Nat) :
    (walk.step setting i index).previous = if i.opcode.isHidden then walk.previous else some i.opcode := by
  unfold step
  dsimp only
  rw [(framed_reconcile i.endPosition).previous]
  split
  · exact walk.writeLabel_previous i.position
  · rfl

end Walk

/-- Kind of the last instruction before an index that is not hidden. -/
def Body.previousOpcode? (body : Body) (index : Nat) : Option Opcode :=
  ((body.instructions.toList.take index).filter (!·.opcode.isHidden)).getLast?.map (·.opcode)

namespace Setting

/-- A walk knows the kind of the instruction before. -/
theorem walkTo_previous (setting : Setting) (seeds : List Nat) (count : Nat) :
    (setting.walkTo seeds count).previous = setting.body.previousOpcode? count := by
  induction count with
  | zero => exact (Walk.framed_reconcile 0).previous _
  | succ count ih =>
      cases hi : setting.body.instructions.toList[count]? with
      | none =>
          rw [walkTo_succ_of_none setting seeds hi, ih, Body.previousOpcode?, Body.previousOpcode?, List.take_add_one,
            hi]
          simp
      | some i =>
          rw [walkTo_succ setting seeds hi, Walk.step_previous, ih, Body.previousOpcode?, Body.previousOpcode?,
            List.take_add_one, hi]
          cases hhidden : i.opcode.isHidden <;> simp [hhidden]

/-!
### The step over an instruction

First the instruction is written and the block that it begins opens, then blocks close, and then loops open.
-/

/-- The walk once an instruction has been written and the block that it begins is open. -/
def opened (setting : Setting) (seeds : List Nat) (index : Nat) (i : Instruction) : Walk :=
  ((setting.walkTo seeds index).utter setting i index).openDue (.upTo i.endPosition) false

/-- An instruction pops the iterator of a `foreach`: the last instruction before it that is not hidden advances an
    iterator, and no other `foreach` is open inside. -/
structure Pops (setting : Setting) (seeds : List Nat) (index : Nat) (i : Instruction) (b : OpenBlock) : Prop where
  opcode : i.opcode = .iteratorPop
  previous : setting.body.previousOpcode? index = some .iteratorNext
  innermost : (setting.walkTo seeds index).blocks.innermostWhere? (· == .forEach) = some b

/-- The end of a block is due after an instruction. -/
def Ends (setting : Setting) (seeds : List Nat) (index : Nat) (i : Instruction) (c : OpenBlock) : Prop :=
  (setting.opened seeds index i).blocks.endsBy (.upTo i.endPosition) c.id = true

/-- The end of a block around `b` is due after an instruction. -/
def ForcedOut (setting : Setting) (seeds : List Nat) (index : Nat) (i : Instruction) (b : OpenBlock) : Prop :=
  ∃ inner outer, (setting.opened seeds index i).blocks.chain = inner ++ b :: outer ∧
    ∃ c ∈ outer, setting.Ends seeds index i c

/-- The first blocks that close in a step, in this order. -/
def ClosesFirst (setting : Setting) (seeds : List Nat) (index : Nat) (blocks : List OpenBlock) : Prop :=
  ∃ said closings rest,
    (setting.walkTo seeds (index + 1)).events.toList =
      (setting.walkTo seeds index).events.toList ++ said ++ closings ++ rest ∧
    (∀ e ∈ said, e.isClosing = false) ∧ List.Forall₂ OpenBlock.ClosedBy blocks closings

section

variable {setting : Setting} {format : Format} {seeds : List Nat} {index : Nat} {i : Instruction} {b : OpenBlock}

/-- What closes in a step, and what is open after it. -/
theorem walkTo_succ_eq (hi : setting.body.instructions[index]? = some i) :
    setting.walkTo seeds (index + 1) =
      ((setting.opened seeds index i).closeDue (.upTo i.endPosition)
        (setting.opened seeds index i).blocks.chain.length).openDue (.upTo i.endPosition) true := by
  rw [walkTo_succ setting seeds (Array.getElem?_toList.trans hi)]
  rfl

variable (htiles : Tiles 0 0 setting.body.instructions.toList)

include htiles

theorem upToDate_before (hi : setting.body.instructions[index]? = some i) :
    (setting.walkTo seeds index).UpToDate i.position := by
  have hcursor := Body.cursorAfter_eq_position (Body.isTiled_of_tiles htiles) (Array.getElem?_toList.trans hi)
  exact hcursor ▸ setting.upToDate_walkTo htiles seeds index

theorem balanced_utter (hi : setting.body.instructions[index]? = some i) :
    let next := (setting.walkTo seeds index).utter setting i index
    next.blocks.Balanced (next.blocks.openings.filter (!·.deferred)) i.endPosition := by
  have hbefore : (setting.walkTo seeds index).UpToDate i.position := upToDate_before htiles hi
  have hsize := (htiles.nonempty (List.mem_of_getElem? (Array.getElem?_toList.trans hi))).1
  have hqueued := (hbefore.toSettled.utter setting i index).2
  exact (hbefore.writeLabel i.position).balanced_queued hqueued (Nat.lt_add_of_pos_right hsize)

theorem tended_opened (hi : setting.body.instructions[index]? = some i) :
    (setting.opened seeds index i).Tended i.endPosition :=
  ((upToDate_before htiles hi).toSettled.utter setting i index).1.tended_openDue (balanced_utter htiles hi)

/-- An instruction takes no `foreach` off the chain before blocks close. -/
theorem mem_opened_of_mem (hi : setting.body.instructions[index]? = some i) (hkind : b.kind = .forEach)
    (hb : b ∈ (setting.walkTo seeds index).blocks.chain) : b ∈ (setting.opened seeds index i).blocks.chain := by
  apply Walk.mem_openDue_of_mem
  · rwa [(upToDate_before htiles hi).toSettled.utter_chain]
  · rw [hkind]
    decide

/-- When blocks have closed, no `foreach` opens or closes any more. -/
theorem mem_walkTo_succ_iff (hi : setting.body.instructions[index]? = some i) (hkind : b.kind = .forEach) :
    b ∈ (setting.walkTo seeds (index + 1)).blocks.chain ↔
      b ∈ ((setting.opened seeds index i).closeDue (.upTo i.endPosition)
        (setting.opened seeds index i).blocks.chain.length).blocks.chain := by
  rw [walkTo_succ_eq hi]
  exact ((tended_opened htiles hi).closeDue (Nat.le_refl _)).1.toSettled.mem_openDue_iff hkind ..

/-- After a pop no begin is due, so the end is all that takes effect. -/
theorem opened_of_pops (hsuits : i.token.Suits format i.opcode) (hi : setting.body.instructions[index]? = some i)
    (hpops : setting.Pops seeds index i b) :
    (setting.opened seeds index i).blocks =
      (setting.walkTo seeds index).blocks.queueEnd .forEach b.id i.endPosition none := by
  have hprevious := (setting.walkTo_previous seeds index).trans hpops.previous
  have hblocks := Walk.utter_blocks_of_pop hsuits hpops.opcode hi hprevious hpops.innermost
  have hopened : setting.opened seeds index i = (setting.walkTo seeds index).utter setting i index := by
    apply Walk.openDue_of_none
    intro m hm
    cases hside : m.side with
    | closing => exact Blocks.isDue_of_closing hside
    | opening =>
        rw [hblocks] at hm
        rcases Walk.end_of_queueEnd hm with hm | rfl
        · have hopening : m ∈ (setting.walkTo seeds index).blocks.openings :=
            List.mem_filter.2 ⟨hm, by rw [hside]; rfl⟩
          exact Blocks.isDue_of_deferred ((upToDate_before htiles hi).begins m hopening).1
        · cases hside
  rw [hopened, hblocks]

/-- The end of a `foreach` is due after its pop, and after no other instruction. -/
theorem ends_iff_pops (hsuits : i.token.Suits format i.opcode) (hi : setting.body.instructions[index]? = some i)
    (hkind : b.kind = .forEach) (hb : b ∈ (setting.opened seeds index i).blocks.chain) :
    setting.Ends seeds index i b ↔ setting.Pops seeds index i b := by
  have hopened : (setting.opened seeds index i).Tended i.endPosition := tended_opened htiles hi
  have hbefore : (setting.walkTo seeds index).UpToDate i.position := upToDate_before htiles hi
  constructor
  · intro hends
    obtain ⟨m, hfound, -⟩ := (Option.any_eq_true ..).1 hends
    have hm := List.mem_of_find?_eq_some hfound
    obtain ⟨hid, hside⟩ := Blocks.isEndOf_iff.1 (List.find?_some hfound)
    have hsame : m.kind = .forEach := ((hopened.numbered.ends m hm hside).chain b hb hid.symm).symm.trans hkind
    have hqueued := List.mem_of_mem_filter ((Walk.openDue_pending _ (.upTo i.endPosition) false).subset hm)
    rcases Walk.end_of_utter hqueued hside hsame with hold | ⟨hopcode, hprevious, block, hinner, rfl⟩
    · -- An end that was queued before would have been due before.
      have hdue := hbefore.balanced.forEach m hold hside hsame
      exact absurd (hbefore.ahead m hold) (Nat.not_lt.2 hdue)
    · have hforEach : block.kind = .forEach := by simpa using List.find?_some hinner
      have hblock := mem_opened_of_mem htiles hi hforEach (List.mem_of_find?_eq_some hinner)
      obtain rfl : block = b := hopened.numbered.eq_of_id hblock hb hid
      exact ⟨hopcode, (setting.walkTo_previous seeds index).symm.trans hprevious, hinner⟩
  · intro hpops
    have hblocks := opened_of_pops htiles hsuits hi hpops
    let m := (setting.walkTo seeds index).blocks.newEnd .forEach b.id i.endPosition none
    have hm : m ∈ (setting.opened seeds index i).blocks.pending := by
      rw [hblocks, Blocks.queueEnd_eq]
      exact List.mem_append_right _ (List.mem_singleton.2 rfl)
    have hend : Blocks.isEndOf b.id m = true := Blocks.isEndOf_iff.2 ⟨rfl, rfl⟩
    rw [Ends, Blocks.endsBy, Option.any_eq_true]
    cases hfound : (setting.opened seeds index i).blocks.pendingEnd? b.id with
    | none => exact absurd hend (List.find?_eq_none.1 hfound m hm)
    | some found =>
        have hsame := hopened.balanced.eq_of_mem_ends
          (List.mem_filter.2 ⟨List.mem_of_find?_eq_some hfound, List.find?_some hfound⟩)
          (List.mem_filter.2 ⟨hm, hend⟩)
        exact ⟨found, rfl, by rw [hsame]; exact decide_eq_true (Nat.le_refl _)⟩

/-- The step in which a `foreach` leaves the chain. -/
theorem leaves_iff (hsuits : i.token.Suits format i.opcode) (hi : setting.body.instructions[index]? = some i)
    (hkind : b.kind = .forEach) (hb : b ∈ (setting.opened seeds index i).blocks.chain) :
    b ∉ (setting.walkTo seeds (index + 1)).blocks.chain ↔
      setting.Pops seeds index i b ∨ setting.ForcedOut seeds index i b := by
  have hgone : ∀ inner outer, (setting.opened seeds index i).blocks.chain = inner ++ b :: outer →
      (b ∉ (setting.walkTo seeds (index + 1)).blocks.chain ↔
        setting.Ends seeds index i b ∨ ∃ c ∈ outer, setting.Ends seeds index i c) := by
    intro inner outer hchain
    rw [mem_walkTo_succ_iff htiles hi hkind, (tended_opened htiles hi).mem_closeDue_iff hchain, not_not]
    rfl
  have hpops := ends_iff_pops htiles hsuits hi hkind hb
  obtain ⟨inner, outer, hchain⟩ := List.append_of_mem hb
  constructor
  · intro hleaves
    exact ((hgone inner outer hchain).1 hleaves).imp hpops.1 fun hforced => ⟨inner, outer, hchain, hforced⟩
  · rintro (hpop | ⟨inner', outer', hchain', hforced⟩)
    · exact (hgone inner outer hchain).2 (Or.inl (hpops.2 hpop))
    · exact (hgone inner' outer' hchain').2 (Or.inr hforced)

/-- It stays open for as long as neither its pop comes nor the end of a block around it. -/
theorem stays_open {last : Nat} (hsuits : ∀ j ∈ setting.body.instructions.toList, j.token.Suits format j.opcode)
    (hi : setting.body.instructions[index]? = some i) (hkind : b.kind = .forEach)
    (hb : b ∈ (setting.opened seeds index i).blocks.chain) (hlast : index < last)
    (hsize : last ≤ setting.body.instructions.size)
    (hbetween : ∀ k j, index ≤ k → k < last → setting.body.instructions[k]? = some j →
      ¬setting.Pops seeds k j b ∧ ¬setting.ForcedOut seeds k j b) :
    b ∈ (setting.walkTo seeds last).blocks.chain := by
  have hstep : ∀ k j, index ≤ k → k < last → setting.body.instructions[k]? = some j →
      b ∈ (setting.opened seeds k j).blocks.chain → b ∈ (setting.walkTo seeds (k + 1)).blocks.chain := by
    intro k j hle hlt hj hopen
    by_contra hleaves
    have hmem := hsuits j (List.mem_of_getElem? (Array.getElem?_toList.trans hj))
    obtain ⟨hpops, hforced⟩ := hbetween k j hle hlt hj
    exact ((leaves_iff htiles hmem hj hkind hopen).1 hleaves).elim hpops hforced
  induction last, hlast using Nat.le_induction with
  | base => exact hstep index i (Nat.le_refl _) (Nat.lt_succ_self _) hi hb
  | succ last hle ih =>
      have hj := Array.getElem?_eq_getElem (Nat.lt_of_succ_le hsize)
      have hopen := ih (Nat.le_of_succ_le hsize)
        (fun k j hk hlt => hbetween k j hk (Nat.lt_succ_of_lt hlt))
        fun k j hk hlt => hstep k j hk (Nat.lt_succ_of_lt hlt)
      exact hstep last _ (Nat.le_of_succ_le hle) (Nat.lt_succ_self _) hj (mem_opened_of_mem htiles hj hkind hopen)

omit htiles in
/-- Before blocks close there are the label and the line of the instruction, and the begin of its block. -/
theorem opened_events (setting : Setting) (seeds : List Nat) (index : Nat) (i : Instruction) :
    ∃ said, (setting.opened seeds index i).events.toList = (setting.walkTo seeds index).events.toList ++ said ∧
      ∀ e ∈ said, e.isClosing = false := by
  obtain ⟨notes, said, huttered, hnotes, hspeech⟩ := Walk.utter_speech setting (setting.walkTo seeds index) i index
  have hopened := (Walk.takesEffect_openDue ((setting.walkTo seeds index).utter setting i index)
    (.upTo i.endPosition) false).events
  have hnote : ∀ e : Event, e.isNote = true → e.isClosing = false := by
    intro e he
    cases e with
    | closed => cases he
    | _ => rfl
  refine ⟨notes ++ said ++ _, hopened.trans (by rw [huttered, List.append_assoc]), fun e he => ?_⟩
  rw [List.mem_append, List.mem_append] at he
  rcases he with (he | he) | he
  · exact hnote e (hnotes e he)
  · rcases hspeech with ⟨-, hsaid⟩ | ⟨line, rfl, -⟩
    · exact hnote e (hsaid e he)
    · rw [List.mem_singleton.1 he]
      rfl
  · obtain ⟨m, hm, rfl⟩ := List.mem_map.1 he
    have hside := (Blocks.mem_takeBegins.1 hm).2.1
    unfold Marker.effect
    rw [hside]
    cases m.kind <;> rfl

/-- A block whose end is due closes, and what is open inside it closes before. -/
theorem closesFirst_of_ends (hi : setting.body.instructions[index]? = some i) {inner outer : List OpenBlock}
    {c : OpenBlock} (hchain : (setting.opened seeds index i).blocks.chain = inner ++ c :: outer)
    (hends : setting.Ends seeds index i c) : setting.ClosesFirst seeds index (inner ++ [c]) := by
  have hdepth : inner.length + 1 ≤ (setting.opened seeds index i).dueDepth (.upTo i.endPosition) := by
    rw [Walk.dueDepth, hchain]
    exact (Blocks.lt_depthTo_append ..).2 ((Blocks.depthTo_pos_iff ..).2 ⟨c, List.mem_cons_self, hends⟩)
  obtain ⟨said, hopened, hsaid⟩ := setting.opened_events seeds index i
  obtain ⟨-, closings, hclosed, hclosings⟩ := Walk.closeTop_iterate (setting.opened seeds index i)
    ((setting.opened seeds index i).dueDepth (.upTo i.endPosition))
  obtain ⟨loops, hloops⟩ : ∃ loops, (setting.walkTo seeds (index + 1)).events.toList =
      (setting.walkTo seeds index).events.toList ++ said ++ closings ++ loops := by
    rw [walkTo_succ_eq hi, (tended_opened htiles hi).closeDue_eq_iterate _ (Nat.le_refl _), ← hopened, ← hclosed]
    exact ⟨_, (Walk.takesEffect_openDue ..).events⟩
  have hfirst := List.forall₂_take (inner.length + 1) hclosings
  rw [List.take_take, Nat.min_eq_left hdepth, hchain, List.take_length_add_append, List.take_succ_cons,
    List.take_zero] at hfirst
  refine ⟨said, closings.take (inner.length + 1), closings.drop (inner.length + 1) ++ loops, ?_, hsaid, hfirst⟩
  rw [hloops, ← List.append_assoc, List.append_assoc _ (closings.take _), List.take_append_drop]

end

/-- How a `foreach` leaves the chain of open blocks. -/
structure KeepsForEach (setting : Setting) (seeds : List Nat) : Prop where
  /-- A `foreach` that is open before an instruction, or after it, is open once the instruction has been written. -/
  opened : ∀ index i b, setting.body.instructions[index]? = some i → b.kind = .forEach →
    b ∈ (setting.walkTo seeds index).blocks.chain ∨ b ∈ (setting.walkTo seeds (index + 1)).blocks.chain →
    b ∈ (setting.opened seeds index i).blocks.chain
  /-- The instruction takes it off the chain if it is its pop, or if the end of a block around it is due, and in no
      other case. -/
  leaves : ∀ index i b, setting.body.instructions[index]? = some i → b.kind = .forEach →
    b ∈ (setting.opened seeds index i).blocks.chain →
    (b ∉ (setting.walkTo seeds (index + 1)).blocks.chain ↔
      setting.Pops seeds index i b ∨ setting.ForcedOut seeds index i b)
  /-- From its begin on it is open for as long as neither comes. -/
  stays : ∀ first last i b, setting.body.instructions[first]? = some i → b.kind = .forEach →
    b ∈ (setting.opened seeds first i).blocks.chain → first < last → last ≤ setting.body.instructions.size →
    (∀ index j, first ≤ index → index < last → setting.body.instructions[index]? = some j →
      ¬setting.Pops seeds index j b ∧ ¬setting.ForcedOut seeds index j b) →
    b ∈ (setting.walkTo seeds last).blocks.chain
  /-- At its pop it closes, and what is open inside it closes before. -/
  popped : ∀ index i b inner outer, setting.body.instructions[index]? = some i → setting.Pops seeds index i b →
    (setting.walkTo seeds index).blocks.chain = inner ++ b :: outer → setting.ClosesFirst seeds index (inner ++ [b])
  /-- A block around it that is due closes, and all that is open inside that block, the `foreach` too, closes before. -/
  forced : ∀ index i b inner between c outer, setting.body.instructions[index]? = some i →
    (setting.opened seeds index i).blocks.chain = inner ++ b :: between ++ c :: outer → setting.Ends seeds index i c →
    setting.ClosesFirst seeds index (inner ++ b :: between ++ [c])
  /-- The walk ends with nothing open. -/
  flushed : (setting.walk seeds).blocks.chain = []

end Setting

/-- In every walk over a decoded body a `foreach` lives until its own iterator is popped. It leaves the chain of open
    blocks at a pop right behind an advance for which it is the innermost `foreach`, when a block around it closes, or
    when the walk ends; no other instruction closes it, whatever it is and wherever it leads. -/
theorem walk_keepsForEach (source : Source) (dialect : Dialect) (words : Vocabulary) (scope : Scope)
    (suppressImplicitReturn : Bool) (seeds : List Nat) :
    let setting : Setting := ⟨source.decode dialect, words, scope, suppressImplicitReturn⟩
    setting.KeepsForEach seeds := by
  intro setting
  have htiles : Tiles 0 0 setting.body.instructions.toList := decode_tiles source dialect
  have hsuits : ∀ i ∈ setting.body.instructions.toList, i.token.Suits dialect.format i.opcode := fun i hi =>
    have hconforms := decode_everywhere readInstruction_conforms source i (Array.mem_toList_iff.1 hi)
    (Instruction.everywhere_iff.1 hconforms).1.token
  clear_value setting
  have hsuitsAt : ∀ {index : Nat} {i : Instruction}, setting.body.instructions[index]? = some i →
      i.token.Suits dialect.format i.opcode :=
    fun hi => hsuits _ (List.mem_of_getElem? (Array.getElem?_toList.trans hi))
  constructor
  · rintro index i b hi hkind (hb | hb)
    · exact Setting.mem_opened_of_mem htiles hi hkind hb
    · rw [Setting.mem_walkTo_succ_iff htiles hi hkind] at hb
      exact (Walk.shrinks_closeDue ..).2.subset hb
  · exact fun index i b hi hkind hb => Setting.leaves_iff htiles (hsuitsAt hi) hi hkind hb
  · exact fun first last i b hi hkind hb hlast hsize hbetween =>
      Setting.stays_open htiles hsuits hi hkind hb hlast hsize hbetween
  · intro index i b inner outer hi hpops hchain
    have hblocks := Setting.opened_of_pops htiles (hsuitsAt hi) hi hpops
    have hchain' : (setting.opened seeds index i).blocks.chain = inner ++ b :: outer := by rw [hblocks]; exact hchain
    have hkind : b.kind = .forEach := by simpa using List.find?_some hpops.innermost
    have hends := (Setting.ends_iff_pops htiles (hsuitsAt hi) hi hkind (by simp [hchain'])).2 hpops
    exact Setting.closesFirst_of_ends htiles hi hchain' hends
  · exact fun index i b inner between c outer hi hchain hends => Setting.closesFirst_of_ends htiles hi hchain hends
  · exact (setting.bracketed_walk seeds).2

/-- A `foreach` with a block inside that reaches past the pop. -/
def unclosedIf : Source where
  declaration := "unclosedIf"
  bytes := [0x2F, 0x17, 0x08, 0x00, 0x07, 0x20, 0x00, 0x27, 0x31, 0x30, 0x17]
  declaredSize := 11

theorem walk_keepsForEach_unclosedIf :
    let setting : Setting := ⟨unclosedIf.decode delegateDialect, noWords, {}, true⟩
    let inside : OpenBlock := ⟨.ifBlock, 1, 4, 8, 32⟩
    let around : OpenBlock := ⟨.forEach, 0, 0, 4, 8⟩
    (∃ i, setting.body.instructions[3]? = some i ∧ setting.Pops [] 3 i around) ∧
      (setting.walkTo [] 3).blocks.chain = [inside, around] ∧ setting.ClosesFirst [] 3 [inside, around] := by
  intro setting inside around
  have hmap : setting.body.instructions[3]?.map (·.opcode) = some .iteratorPop := by decide +kernel
  obtain ⟨i, hi, hopcode⟩ := Option.map_eq_some_iff.1 hmap
  have hpops : setting.Pops [] 3 i around := ⟨hopcode, by decide +kernel, by decide +kernel⟩
  have hchain : (setting.walkTo [] 3).blocks.chain = [inside, around] := by decide +kernel
  have hkeeps : setting.KeepsForEach [] := walk_keepsForEach unclosedIf delegateDialect noWords {} true []
  clear_value setting inside around
  exact ⟨⟨i, hi, hpops⟩, hchain, hkeeps.popped 3 i around [inside] [] hi hpops hchain⟩

end ScriptBytecode
