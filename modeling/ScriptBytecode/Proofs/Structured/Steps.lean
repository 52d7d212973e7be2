/-
Module: ScriptBytecode.Proofs.Structured.Steps
Purpose: Steps of a walk over structured code. For each kind of instruction of structured code, a step from a known
  stage leads to a known stage: a line is written, or a block opens or closes.
Main exports: Walk.noted, Marker.Ends, Stage.step_statement, Stage.step_if, Stage.step_while, Stage.step_until,
  Stage.step_iterator, Stage.step_iteratorPop, Stage.step_switch, Stage.step_case, Stage.step_default,
  Stage.step_closing, Stage.step_break, Stage.step_else, Stage.step_continue
-/
import ScriptBytecode.Proofs.Structured.Shape
import ScriptBytecode.Proofs.Structured.Stage

namespace ScriptBytecode

namespace Walk

/-- The walk after an instruction with its line. -/
def noted (walk : Walk) (i : Instruction) (wording : Wording) (remark : Option String) : Walk :=
  { walk.emit (.statement {
      position := i.position
      text := wording.text
      terminated := wording.terminated
      preComment := wording.comment
      postComment := remark }) with previous := some i.opcode }

/-- The walk after an instruction that writes nothing. -/
def pass (walk : Walk) (i : Instruction) (remark : Option String) : Walk := walk.noted i {} remark

end Walk

/-- The marker ends a block where the block is known to end. -/
structure Marker.Ends (e : Marker) (block : OpenBlock) : Prop where
  side : e.side = .closing
  kind : e.kind = block.kind
  id : e.id = block.id
  position : e.position = block.stop
  text : e.text = none

/-- Both ends of a new block are queued. -/
theorem Blocks.queueBlock_eq (blocks : Blocks) (kind : BlockKind) (position creator stop : Nat)
    (text : Option String) :
    ∃ e, (blocks.queueBlock kind position creator stop text).2 =
        { blocks with
          pending := blocks.pending ++
            [blocks.newBegin kind position creator stop text false, e]
          nextId := blocks.nextId + 1 } ∧
      e.Ends ⟨kind, blocks.nextId, creator, position, stop⟩ := by
  refine ⟨(blocks.queueBegin kind position creator stop text false).2.newEnd kind blocks.nextId stop
    none, ?_, ⟨rfl, rfl, rfl, rfl, rfl⟩⟩
  show queueEnd (blocks.queueBegin kind position creator stop text false).2 kind blocks.nextId stop
    none = _
  rw [queueEnd_eq, queueBegin_pending, List.append_assoc]
  rfl

namespace Stage

variable {options : Options} {setting : Setting} {walk : Walk} {loops ends : List Marker}
  {chain : List OpenBlock} {rows : List Row} {i : Instruction} {index position target : Nat}
  {remark : Option String}

/-!
### One instruction
-/

theorem pass (h : Stage options walk loops ends chain rows) (i : Instruction)
    (remark : Option String) : Stage options (walk.pass i remark) loops ends chain rows := by
  have hrows : (Event.statement { position := i.position, text := "", postComment := remark }).rows
      options chain = [] := by
    simp [Event.rows, Event.texts, Options.remark]
  have hnote := h.note (e := .statement { position := i.position, text := "", postComment := remark })
    rfl i.opcode
  rw [hrows, List.append_nil] at hnote
  exact hnote

/-- A line is written. -/
theorem noted (h : Stage options walk loops ends chain rows) (i : Instruction) {line : Line}
    (htext : line.text ≠ "") :
    Stage options (walk.noted i { text := line.text, terminated := line.terminated } line.postComment) loops ends
      chain (rows ++ rowsAt chain.length [line.written options]) := by
  have hnote := h.note (e := .statement {
    position := i.position
    text := line.text
    terminated := line.terminated
    postComment := line.postComment }) rfl i.opcode
  have hrows : (Event.statement {
      position := i.position
      text := line.text
      terminated := line.terminated
      postComment := line.postComment }).rows options chain =
      rowsAt chain.length [line.written options] := by
    simp [Event.rows, Event.texts, Event.outward, Event.outdent, Options.remark, Line.written, rowsAt,
      String.isEmpty_iff, htext]
  rw [hrows] at hnote
  exact hnote

theorem writeLabel_eq (h : Stage options walk loops ends chain rows) (position : Nat) :
    walk.writeLabel position = walk := by
  simp [Walk.writeLabel, h.labels, LabelTable.take]

/-- A step over an instruction that can be written. -/
theorem step_eq (h : Stage options walk loops ends chain rows) (hshown : i.opcode.isHidden = false)
    (hexplicit : setting.body.isImplicitReturn index = false) {statement : Statement}
    (hstatement : (i.statement setting.words setting.scope (walk.blocks.isInside .switch)).run none =
      .ok statement remark) {wording : Walk.Wording} {blocks : Blocks}
    (hperform : walk.perform setting.body index i statement = (wording, { walk with blocks })) :
    walk.step setting i index =
      Walk.reconcile { walk.noted i wording remark with blocks } i.endPosition := by
  unfold Walk.step Walk.write
  simp only [h.writeLabel_eq, hshown, hexplicit, hstatement, hperform, Bool.and_false, Bool.false_eq_true, if_false]
  rfl

/-- A step over an instruction that writes nothing by itself. -/
theorem step_pass (h : Stage options walk loops ends chain rows) (hshown : i.opcode.isHidden = false)
    (hexplicit : setting.body.isImplicitReturn index = false) {statement : Statement}
    (hstatement : (i.statement setting.words setting.scope false).run none = .ok statement remark)
    {blocks : Blocks}
    (hperform : walk.perform setting.body index i statement = ({}, { walk with blocks })) :
    walk.step setting i index =
      Walk.reconcile { walk.pass i remark with blocks } i.endPosition :=
  h.step_eq hshown hexplicit (Instruction.statement_inside hstatement _) hperform

/-- A statement without control flow writes its line. -/
theorem step_statement (h : Stage options walk loops ends chain rows) {line : Line}
    (hi : IsStatement setting.words setting.scope i position line)
    (hexplicit : setting.body.isImplicitReturn index = false) :
    ∃ next, walk.step setting i index = next.reconcile i.endPosition ∧
      Stage options next loops ends chain (rows ++ rowsAt chain.length [line.written options]) :=
  ⟨_, h.step_eq hi.shown hexplicit (Instruction.statement_inside hi.statement _) rfl, h.noted i hi.text⟩

/-- The instruction opens a block after it and queues its end. -/
theorem step_block (h : Stage options walk loops ends chain rows) (hshown : i.opcode.isHidden = false)
    (hexplicit : setting.body.isImplicitReturn index = false) {statement : Statement}
    (hstatement : (i.statement setting.words setting.scope (walk.blocks.isInside .switch)).run none =
      .ok statement remark) {wording : Walk.Wording} {kind : BlockKind} {stop : Nat} {header : Option String}
    (hperform : walk.perform setting.body index i statement = (wording, walk.queueBlock kind i stop header))
    {lines : List Row} (hnoted : Stage options (walk.noted i wording remark) loops ends chain lines)
    (hbreak : kind ≠ .switchBreak) (helse : kind ≠ .elseBlock) :
    ∃ next id e, walk.step setting i index = next.reconcile i.endPosition ∧
      Marker.Ends e ⟨kind, id, i.position, i.endPosition, stop⟩ ∧ (∀ m ∈ ends, m.id ≠ id) ∧
      Stage options next loops (ends ++ [e]) (⟨kind, id, i.position, i.endPosition, stop⟩ :: chain)
        (lines ++ rowsAt chain.length (kind.braces (options.openBraces (header.getD "")))) := by
  obtain ⟨e, hqueue, hends⟩ := walk.blocks.queueBlock_eq kind i.endPosition i.position stop header
  obtain ⟨next, hnext, hstage⟩ := hnoted.opensBlock
    (walk.blocks.newBegin kind i.endPosition i.position stop header false) [e] rfl rfl
    (Nat.le_refl _) hbreak helse (List.forall_mem_singleton.2 ⟨hends.side, hends.id⟩) (Nat.lt_succ_self _)
  refine ⟨next, walk.blocks.nextId, e, ?_, hends, ?_, hstage⟩
  · rw [h.step_eq hshown hexplicit hstatement hperform, hqueue]
    exact hnext
  · exact fun m hm => Nat.ne_of_lt (h.numbered m (List.mem_append_right _ hm))

/-- A forward conditional jump opens an `if`. -/
theorem step_if (h : Stage options walk loops ends chain rows) {condition : String}
    (hi : IsBranch setting.words setting.scope i position target condition)
    (hforward : position < target) (hguard : setting.body.isWhileGuard i = false)
    (hexplicit : setting.body.isImplicitReturn index = false) :
    ∃ next id e, walk.step setting i index = next.reconcile i.endPosition ∧
      Marker.Ends e ⟨.ifBlock, id, position, i.endPosition, target⟩ ∧ (∀ m ∈ ends, m.id ≠ id) ∧
      Stage options next loops (ends ++ [e])
        (⟨.ifBlock, id, position, i.endPosition, target⟩ :: chain)
        (rows ++ rowsAt chain.length (options.openBraces s!"if({condition})")) := by
  obtain ⟨remark, hstatement⟩ := hi.statement
  have hperform : walk.branch setting.body i target condition =
      ({}, walk.queueBlock .ifBlock i target (some s!"if({condition})")) := by
    unfold Walk.branch
    rw [if_neg (by simp [hi.isDoUntil, hforward]), if_neg (by simp [hguard])]
  rw [← hi.position]
  exact h.step_block (by simp [hi.opcode, Opcode.isHidden]) hexplicit (Instruction.statement_inside hstatement _)
    hperform (h.pass i remark) nofun nofun

/-- The guard of a `while` loop opens the loop. -/
theorem step_while (h : Stage options walk loops ends chain rows) {condition : String}
    (hi : IsBranch setting.words setting.scope i position target condition)
    (hforward : position < target) (hguard : setting.body.isWhileGuard i = true)
    (hexplicit : setting.body.isImplicitReturn index = false) :
    ∃ next id e, walk.step setting i index = next.reconcile i.endPosition ∧
      Marker.Ends e ⟨.loop, id, position, i.endPosition, target⟩ ∧ (∀ m ∈ ends, m.id ≠ id) ∧
      Stage options next loops (ends ++ [e]) (⟨.loop, id, position, i.endPosition, target⟩ :: chain)
        (rows ++ rowsAt chain.length (options.openBraces s!"while({condition})")) := by
  obtain ⟨remark, hstatement⟩ := hi.statement
  have hperform : walk.branch setting.body i target condition =
      ({}, walk.queueBlock .loop i target (some s!"while({condition})")) := by
    unfold Walk.branch
    rw [if_neg (by simp [hi.isDoUntil, hforward]), if_pos hguard]
  rw [← hi.position]
  exact h.step_block (by simp [hi.opcode, Opcode.isHidden]) hexplicit (Instruction.statement_inside hstatement _)
    hperform (h.pass i remark) nofun nofun

/-- The start of a `foreach` opens its block. -/
theorem step_iterator (h : Stage options walk loops ends chain rows) {text : String}
    (hi : IsIterator setting.words setting.scope i position target text)
    (hexplicit : setting.body.isImplicitReturn index = false) :
    ∃ next id, walk.step setting i index = next.reconcile i.endPosition ∧ (∀ m ∈ ends, m.id ≠ id) ∧
      Stage options next loops ends (⟨.forEach, id, position, i.endPosition, target⟩ :: chain)
        (rows ++ rowsAt chain.length (options.openBraces s!"foreach {text}")) := by
  obtain ⟨remark, hstatement⟩ := hi.statement
  have hshown : i.opcode.isHidden = false := by simp [hi.opcode, Opcode.isHidden]
  obtain ⟨next, hnext, hstage⟩ := (h.pass i remark).opensBlock
    (walk.blocks.newBegin .forEach i.endPosition i.position target (some s!"foreach {text}") false) []
    rfl rfl (Nat.le_refl _) (fun h => by cases h) (fun h => by cases h) (by simp) (Nat.lt_succ_self _)
  rw [List.append_nil] at hstage
  rw [← hi.position]
  refine ⟨next, walk.blocks.nextId, ?_, ?_, hstage⟩
  · rw [h.step_pass hshown hexplicit hstatement rfl]
    exact hnext
  · exact fun m hm => Nat.ne_of_lt (h.numbered m (List.mem_append_right _ hm))

/-- The instruction ends the innermost block. -/
theorem step_end {top : OpenBlock} (h : Stage options walk loops ends (top :: chain) rows)
    (hshown : i.opcode.isHidden = false) (hexplicit : setting.body.isImplicitReturn index = false)
    {statement : Statement}
    (hstatement : (i.statement setting.words setting.scope false).run none = .ok statement remark)
    {footer : Option String}
    (hperform : walk.perform setting.body index i statement =
      ({}, walk.queueEnd top.kind top.id i footer))
    (hlabel : top.kind.isLabelLike = false) (hapart : ∀ m ∈ ends, m.id ≠ top.id) :
    ∃ next, walk.step setting i index = next.reconcile i.endPosition ∧
      Stage options next loops ends chain
        (rows ++ rowsAt chain.length (options.closeBraces footer)) := by
  obtain ⟨next, hnext, hstage⟩ := (h.pass i remark).closes
    (walk.blocks.newEnd top.kind top.id i.endPosition footer) rfl rfl rfl (Nat.le_refl _) hapart
  rw [BlockKind.braces_of_block _ hlabel] at hstage
  refine ⟨next, ?_, hstage⟩
  rw [h.step_pass hshown hexplicit hstatement hperform]
  exact hnext

/-- The conditional jump at the end of a `do` loop closes the loop. -/
theorem step_until {top : OpenBlock} (h : Stage options walk loops ends (top :: chain) rows)
    {condition : String} (hi : IsBranch setting.words setting.scope i position target condition)
    (hback : target ≤ position) (hexplicit : setting.body.isImplicitReturn index = false)
    (hkind : top.kind = .loop) (hcreator : top.creator = position)
    (houter : ∀ b ∈ chain, b.kind = .loop → b.creator ≠ position)
    (hapart : ∀ m ∈ ends, m.id ≠ top.id) :
    ∃ next, walk.step setting i index = next.reconcile i.endPosition ∧
      Stage options next loops ends chain
        (rows ++ rowsAt chain.length (options.closeBraces (some s!"until({condition});"))) := by
  obtain ⟨remark, hstatement⟩ := hi.statement
  have hshown : i.opcode.isHidden = false := by simp [hi.opcode, Opcode.isHidden]
  have huntil : i.isDoUntil = true := by simp [hi.isDoUntil, hback]
  -- The loop is looked for from the outside, and no block around it has the same creator.
  have hfound : walk.blocks.findByCreator? .loop i.position = some top.id := by
    have hnone : chain.reverse.find? (fun b => b.kind == .loop && b.creator == position) = none := by
      refine List.find?_eq_none.2 fun b hb => ?_
      simpa using houter b (List.mem_reverse.1 hb)
    unfold Blocks.findByCreator?
    rw [h.chain_eq, hi.position, List.reverse_cons, List.find?_append, hnone]
    simp [hkind, hcreator]
  refine h.step_end hshown hexplicit hstatement ?_ (by simp [hkind, BlockKind.isLabelLike]) hapart
  show walk.branch setting.body i target condition = _
  unfold Walk.branch
  simp only [huntil, if_true, hfound, hkind]

/-- The iterator is taken away at the end of a `foreach`. -/
theorem step_iteratorPop {top : OpenBlock} (h : Stage options walk loops ends (top :: chain) rows)
    (hi : IsBare i position .iteratorPop) (hprevious : walk.previous = some .iteratorNext)
    (hexplicit : setting.body.isImplicitReturn index = false) (hkind : top.kind = .forEach)
    (hapart : ∀ m ∈ ends, m.id ≠ top.id) :
    ∃ next, walk.step setting i index = next.reconcile i.endPosition ∧
      Stage options next loops ends chain
        (rows ++ rowsAt chain.length (options.closeBraces none)) := by
  have hshown : i.opcode.isHidden = false := by simp [hi.opcode, Opcode.isHidden]
  refine h.step_end hshown hexplicit hi.statement_iteratorPop ?_
    (by simp [hkind, BlockKind.isLabelLike]) hapart
  show (({} : Walk.Wording), walk.iteratorPop i) = _
  unfold Walk.iteratorPop
  simp [hprevious, Blocks.innermostWhere?, h.chain_eq, hkind]

/-- An instruction without operands and without a text of its own. -/
theorem step_bare (h : Stage options walk loops ends chain rows) {opcode : Opcode}
    (hi : IsBare i position opcode) (hpop : opcode ≠ .iteratorPop) (htext : constantText opcode = "")
    (hshown : opcode.isHidden = false) (hexplicit : setting.body.isImplicitReturn index = false) :
    walk.step setting i index = (walk.pass i none).reconcile i.endPosition :=
  h.step_pass (hi.opcode ▸ hshown) hexplicit (hi.statement hpop htext) rfl

/-!
### Arms of a `switch`
-/

/-- The head of a `switch` opens its block. How far the block may reach is decided by the block around it. -/
theorem step_switch (h : Stage options walk loops ends chain rows) {value : String} {exit : Nat}
    (hi : IsSwitch setting.words setting.scope i position value)
    (hexit : setting.body.switchEnd index ((chain.head?.map (·.stop)).getD setting.body.codeEnd) = exit)
    (hexplicit : setting.body.isImplicitReturn index = false) :
    ∃ next id e, walk.step setting i index = next.reconcile i.endPosition ∧
      Marker.Ends e ⟨.switch, id, position, i.endPosition, exit⟩ ∧ (∀ m ∈ ends, m.id ≠ id) ∧
      Stage options next loops (ends ++ [e]) (⟨.switch, id, position, i.endPosition, exit⟩ :: chain)
        (rows ++ rowsAt chain.length (options.openBraces s!"switch({value})")) := by
  obtain ⟨remark, hstatement⟩ := hi.statement
  have hperform : walk.perform setting.body index i (.switch value) =
      ({}, walk.queueBlock .switch i exit (some s!"switch({value})")) := by
    unfold Walk.perform Walk.switch Blocks.innermost?
    dsimp only
    rw [h.chain_eq, hexit]
  rw [← hi.position]
  exact h.step_block (by simp [hi.opcode, Opcode.isHidden]) hexplicit (Instruction.statement_inside hstatement _)
    hperform (h.pass i remark) nofun nofun

/-- A label writes its line and opens an arm. -/
theorem step_label (h : Stage options walk loops ends chain rows) (hi : i.StandsAt position)
    (hopcode : i.opcode = .caseLabel) (hexplicit : setting.body.isImplicitReturn index = false)
    (hinside : ∃ b ∈ chain, b.kind = .switch) {statement : Statement} {line : Line}
    (hstatement : (i.statement setting.words setting.scope true).run none = .ok statement line.postComment)
    {kind : BlockKind} {stop : Nat}
    (hperform : walk.perform setting.body index i statement =
      ({ text := line.text, terminated := line.terminated }, walk.queueBlock kind i stop none))
    (htext : line.text ≠ "") (hlabel : kind.isLabelLike = true) :
    ∃ next kind id e, walk.step setting i index = next.reconcile i.endPosition ∧ kind.isLabelLike = true ∧
      Marker.Ends e ⟨kind, id, position, i.endPosition, stop⟩ ∧ (∀ m ∈ ends, m.id ≠ id) ∧
      Stage options next loops (ends ++ [e]) (⟨kind, id, position, i.endPosition, stop⟩ :: chain)
        (rows ++ rowsAt chain.length [line.written options]) := by
  have hswitch : walk.blocks.isInside .switch = true := by
    simpa [Blocks.isInside, h.chain_eq] using hinside
  obtain ⟨next, id, e, hstep, hends, hapart, hstage⟩ :=
    h.step_block (by simp [hopcode, Opcode.isHidden]) hexplicit (hswitch ▸ hstatement) hperform (h.noted i htext)
      (by rintro rfl; cases hlabel) (by rintro rfl; cases hlabel)
  rw [BlockKind.braces_of_arm _ hlabel] at hstage
  rw [← hi.position]
  exact ⟨next, kind, id, e, hstep, hlabel, hends, hapart, by simpa [rowsAt] using hstage⟩

/-- The label of a `case` opens an arm up to where the `case` leads. -/
theorem step_case (h : Stage options walk loops ends chain rows) {line : Line}
    (hi : IsCase setting.words setting.scope i position target line)
    (hexplicit : setting.body.isImplicitReturn index = false) (hinside : ∃ b ∈ chain, b.kind = .switch) :
    ∃ next kind id e, walk.step setting i index = next.reconcile i.endPosition ∧ kind.isLabelLike = true ∧
      Marker.Ends e ⟨kind, id, position, i.endPosition, target⟩ ∧ (∀ m ∈ ends, m.id ≠ id) ∧
      Stage options next loops (ends ++ [e]) (⟨kind, id, position, i.endPosition, target⟩ :: chain)
        (rows ++ rowsAt chain.length [line.written options]) := by
  obtain ⟨value, htext, hterminated, hstatement⟩ := hi.statement
  refine h.step_label hi.toStandsAt hi.opcode hexplicit hinside hstatement ?_ ?_
    (rfl : BlockKind.caseArm.isLabelLike = _)
  · rw [htext, hterminated]
    rfl
  · intro hempty
    have hcolon := (String.append_eq_empty_iff.1 (htext.symm.trans hempty)).2
    exact absurd hcolon (by decide)

/-- The label of a `default` opens an arm up to the end of its `switch`. -/
theorem step_default (h : Stage options walk loops ends chain rows) {line : Line} (hi : IsDefault i position line)
    (hexplicit : setting.body.isImplicitReturn index = false) {b : OpenBlock}
    (hb : chain.find? (·.kind == .switch) = some b) :
    ∃ next kind id e, walk.step setting i index = next.reconcile i.endPosition ∧ kind.isLabelLike = true ∧
      Marker.Ends e ⟨kind, id, position, i.endPosition, b.stop⟩ ∧ (∀ m ∈ ends, m.id ≠ id) ∧
      Stage options next loops (ends ++ [e]) (⟨kind, id, position, i.endPosition, b.stop⟩ :: chain)
        (rows ++ rowsAt chain.length [line.written options]) := by
  obtain rfl := hi.line
  have hinside : ∃ b ∈ chain, b.kind = .switch :=
    ⟨b, List.mem_of_find?_eq_some hb, by simpa using List.find?_some hb⟩
  refine h.step_label hi.toStandsAt hi.opcode hexplicit hinside hi.statement ?_ (by decide)
    (rfl : BlockKind.defaultArm.isLabelLike = _)
  unfold Walk.perform Blocks.innermostWhere?
  dsimp only
  rw [h.chain_eq, hb]
  rfl

/-!
### Jumps

An unconditional jump of structured code is the end of a `while` loop, a `break`, the end of the first block of an
`if` with `else`, or a `continue`. Which one it is follows from the loops around it: all of them stop behind what the
jump belongs to.
-/

theorem isHidden_of_jump (hi : IsJump i position target) : i.opcode.isHidden = false := by
  simp [hi.opcode, Opcode.isHidden]

/-- A jump that ends before every loop around it closes none. -/
theorem closesLoop_of_lt (h : Stage options walk loops ends chain rows)
    (hstops : ∀ b ∈ chain, b.kind = .loop → i.endPosition < b.stop) (target : Nat) :
    walk.closesLoop i target = false := by
  unfold Walk.closesLoop Blocks.innermostWhere?
  rw [h.chain_eq, Option.any_eq_false]
  intro b hb
  have hlt := hstops b (List.mem_of_find?_eq_some hb) (by simpa using List.find?_some hb)
  simp [Nat.ne_of_gt hlt]

/-- The jump at the end of a `while` loop. -/
theorem step_closing {top : OpenBlock} (h : Stage options walk loops ends (top :: chain) rows)
    (hi : IsJump i position target) (hexplicit : setting.body.isImplicitReturn index = false)
    (hkind : top.kind = .loop) (hstop : top.stop = i.endPosition) (hcreator : top.creator = target) :
    walk.step setting i index = (walk.pass i none).reconcile i.endPosition := by
  have hcloses : walk.closesLoop i target = true := by
    simp [Walk.closesLoop, Blocks.innermostWhere?, h.chain_eq, hkind, hstop, hcreator]
  have hperform : walk.jump i target = ({}, { walk with blocks := walk.blocks }) := by
    unfold Walk.jump
    rw [if_pos hcloses]
  exact h.step_pass (isHidden_of_jump hi) hexplicit hi.statement hperform

/-- A jump to the end of the innermost loop or `switch`. -/
theorem step_break (h : Stage options walk loops ends chain rows) (hi : IsJump i position target)
    (hexplicit : setting.body.isImplicitReturn index = false)
    (hstops : ∀ b ∈ chain, b.kind = .loop → i.endPosition < b.stop) {inner : OpenBlock}
    (hinner : chain.find? (·.kind.isBreakable) = some inner) (hstop : inner.stop = target) :
    ∃ next, walk.step setting i index = next.reconcile i.endPosition ∧
      Stage options next loops ends chain (rows ++ rowsAt chain.length ["break;"]) := by
  have hbreak : isBreak target
      ((walk.blocks.innermostWhere? (·.isBreakable)).map (·.stop)) = true := by
    simp [isBreak, Blocks.innermostWhere?, h.chain_eq, hinner, hstop]
  have hperform : walk.jump i target =
      ({}, walk.queueBegin .switchBreak i i.endPosition (some "break;")) := by
    unfold Walk.jump
    rw [if_neg (by simp [h.closesLoop_of_lt hstops]), if_pos hbreak]
  obtain ⟨next, hnext, hstage⟩ := (h.pass i none).breaks
    (walk.blocks.newBegin .switchBreak i.endPosition i.position i.endPosition (some "break;") false)
    rfl rfl (Nat.le_refl _) rfl (Nat.lt_succ_self _)
  refine ⟨next, ?_, hstage⟩
  rw [h.step_pass (isHidden_of_jump hi) hexplicit hi.statement hperform]
  exact hnext

/-- A jump over the `else` of the innermost `if`. -/
theorem step_else {top : OpenBlock} {e : Marker}
    (h : Stage options walk loops (ends ++ [e]) (top :: chain) rows) (hi : IsJump i position target)
    (hexplicit : setting.body.isImplicitReturn index = false)
    (hstops : ∀ b ∈ chain, b.kind.isBreakable = true → target < b.stop)
    (hkind : top.kind = .ifBlock) (he : e.Ends top) (hapart : ∀ m ∈ ends, m.id ≠ top.id)
    (hstop : top.stop = i.endPosition) (hstart : top.start < position)
    (hforward : i.endPosition < target) :
    ∃ next id e', walk.step setting i index = next.reconcile i.endPosition ∧
      Marker.Ends e' ⟨.elseBlock, id, position, i.endPosition, target⟩ ∧ (∀ m ∈ ends, m.id ≠ id) ∧
      Stage options next loops (ends ++ [e'])
        (⟨.elseBlock, id, position, i.endPosition, target⟩ :: chain)
        (rows ++ rowsAt chain.length options.elseBraces) := by
  have hnoBreak : top.kind.isBreakable = false := by simp [hkind, BlockKind.isBreakable]
  have hbreakable : ∀ b ∈ top :: chain, b.kind.isBreakable = true → target < b.stop :=
    List.forall_mem_cons.2 ⟨by simp [hnoBreak], hstops⟩
  have hcloses : walk.closesLoop i target = false :=
    h.closesLoop_of_lt (fun b hb hkind =>
      Nat.lt_trans hforward (hbreakable b hb (by simp [hkind, BlockKind.isBreakable]))) target
  have hbreak : isBreak target
      ((walk.blocks.innermostWhere? (·.isBreakable)).map (·.stop)) = false := by
    unfold isBreak Blocks.innermostWhere?
    rw [h.chain_eq, beq_eq_false_iff_ne]
    intro hsome
    obtain ⟨b, hb, hbstop⟩ := Option.map_eq_some_iff.1 hsome
    have hlt := hbreakable b (List.mem_of_find?_eq_some hb) (by simpa using List.find?_some hb)
    exact Nat.ne_of_gt hlt hbstop
  have hend : walk.blocks.pendingEnd? top.id = some e := by
    have hnone : ∀ m ∈ loops ++ ends, ¬ Blocks.isEndOf top.id m = true := fun m hm => by
      simp [h.isEndOf hapart m hm]
    unfold Blocks.pendingEnd?
    rw [h.pending, ← List.append_assoc, List.find?_append, List.find?_eq_none.2 hnone]
    simp [Blocks.isEndOf, he.id, he.side]
  have helse : walk.entersElse i target = true := by
    unfold Walk.entersElse
    simp [Blocks.innermost?, h.chain_eq, hkind, hend, isElse, he.position, hstop, hforward, hi.position,
      Nat.ne_of_lt hstart]
  have hperform : walk.jump i target = ({}, walk.queueBlock .elseBlock i target none) := by
    unfold Walk.jump
    rw [if_neg (by simp [hcloses]), if_neg (by simp [hbreak]), if_pos helse]
  obtain ⟨e', hqueue, hends⟩ := walk.blocks.queueBlock_eq .elseBlock i.endPosition i.position target none
  obtain ⟨next, hnext, hstage⟩ := (h.pass i none).takesElse
    (walk.blocks.newBegin .elseBlock i.endPosition i.position target none false) [e'] hkind he.id hapart
    rfl rfl (Nat.le_refl _) rfl (List.forall_mem_singleton.2 ⟨hends.side, hends.id⟩)
    (Nat.lt_succ_self _)
  rw [← hi.position]
  refine ⟨next, walk.blocks.nextId, e', ?_, hends, ?_, hstage⟩
  · rw [h.step_pass (isHidden_of_jump hi) hexplicit hi.statement hperform, hqueue]
    exact hnext
  · exact fun m hm => Nat.ne_of_lt (h.numbered m (by simp [hm]))

/-- A jump to the guard of the innermost loop, a `while` loop. -/
theorem step_continue (h : Stage options walk loops ends chain rows) (hi : IsJump i position target)
    (hexplicit : setting.body.isImplicitReturn index = false)
    (hstops : ∀ b ∈ chain, b.kind.isBreakable = true → i.endPosition < b.stop) {inner : OpenBlock}
    (hinner : chain.find? (·.kind.isBreakable) = some inner) (hkind : inner.kind = .loop)
    (hcreator : inner.creator = target) (hback : target < position) :
    ∃ next, walk.step setting i index = next.reconcile i.endPosition ∧
      Stage options next loops ends chain (rows ++ rowsAt chain.length ["continue;"]) := by
  have hlt := hi.lt
  have hstop := hstops inner (List.mem_of_find?_eq_some hinner) (by simp [hkind, BlockKind.isBreakable])
  have hbreak : isBreak target
      ((walk.blocks.innermostWhere? (·.isBreakable)).map (·.stop)) = false := by
    have hne : inner.stop ≠ target := by omega
    simp [isBreak, Blocks.innermostWhere?, h.chain_eq, hinner, hne]
  have helse : walk.entersElse i target = false := by
    unfold Walk.entersElse
    rw [Option.any_eq_false]
    intro top _
    have hnot : ¬ i.endPosition < target := by omega
    simp [isElse, hnot]
  have hcontinues : walk.continues i target = true := by
    have hend : i.position + jumpSize = i.endPosition := by rw [← hi.width]; rfl
    unfold Walk.continues Blocks.innermostWhere?
    rw [h.chain_eq, hinner]
    simp [hkind, isLoopContinue, hcreator, hend, Nat.ne_of_lt hstop]
  have hcloses : walk.closesLoop i target = false :=
    h.closesLoop_of_lt (fun b hb hkind => hstops b hb (by simp [hkind, BlockKind.isBreakable])) target
  have hperform : walk.jump i target =
      ({ text := "continue", terminated := true }, { walk with blocks := walk.blocks }) := by
    unfold Walk.jump
    rw [if_neg (by simp [hcloses]), if_neg (by simp [hbreak]), if_neg (by simp [helse]), if_pos hcontinues]
  have hline : Line.written options { position := i.position, text := "continue", terminated := true } =
      "continue;" := by
    simp [Line.written, Options.remark]
  have hnoted := h.noted i
    (show ({ position := i.position, text := "continue", terminated := true } : Line).text ≠ "" by simp)
  rw [hline] at hnoted
  exact ⟨_, h.step_eq (isHidden_of_jump hi) hexplicit (Instruction.statement_inside hi.statement _) hperform, hnoted⟩

end Stage

end ScriptBytecode
