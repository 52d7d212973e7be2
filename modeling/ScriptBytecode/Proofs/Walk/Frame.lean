/-
Module: ScriptBytecode.Proofs.Walk.Frame
Purpose: What the parts of a walk depend on. Markers that take effect read and change the blocks alone and add events
  of their own; what a statement comes to is decided by the blocks and by the kind of the instruction before it. Labels
  decide nothing but the name that a `goto` is written with, and the events that were recorded decide nothing at all.
Main exports: Event.fromMarker, Walk.Framed, Walk.framed_reconcile, Walk.framed_closing, Walk.Outcome,
  Walk.exists_outcome
-/
import ScriptBytecode.Proofs.Walk.Markers

namespace ScriptBytecode

/-- An event that a marker gives rise to when it takes effect. -/
def Event.fromMarker : Event → Bool
  | .opened _ _ | .alternative _ | .closed _ _ _ | .broke _ => true
  | .label _ _ | .statement _ | .diagnostic _ _ _ => false

namespace Walk

/-- The operation reads the blocks of a walk alone. It changes nothing but them, and adds events of markers. -/
def Framed (f : Walk → Walk) : Prop :=
  ∀ blocks, ∃ next : Blocks, ∃ new : Array Event, (∀ e ∈ new.toList, e.fromMarker = true) ∧
    ∀ walk : Walk, walk.blocks = blocks →
      f walk = { walk with blocks := next, events := walk.events ++ new }

theorem framed_id : Framed fun walk => walk := by
  intro blocks
  refine ⟨blocks, #[], by simp, ?_⟩
  rintro walk rfl
  simp

theorem framed_emit {e : Event} (he : e.fromMarker = true) : Framed (·.emit e) := by
  intro blocks
  refine ⟨blocks, #[e], by simpa using he, ?_⟩
  rintro walk rfl
  simp [emit]

theorem framed_blocks (change : Blocks → Blocks) :
    Framed fun walk => { walk with blocks := change walk.blocks } := by
  intro blocks
  refine ⟨change blocks, #[], by simp, ?_⟩
  rintro walk rfl
  simp

/-- One operation after another. -/
theorem Framed.comp {f g : Walk → Walk} (hf : Framed f) (hg : Framed g) : Framed fun walk => f (g walk) := by
  intro blocks
  obtain ⟨middle, first, hfirst, heqFirst⟩ := hg blocks
  obtain ⟨next, second, hsecond, heqSecond⟩ := hf middle
  refine ⟨next, first ++ second, ?_, ?_⟩
  · intro e he
    rw [Array.toList_append, List.mem_append] at he
    exact he.elim (hfirst e) (hsecond e)
  · intro walk hblocks
    show f (g walk) = _
    rw [heqFirst walk hblocks, heqSecond _ rfl, Array.append_assoc]

/-- An operation that is chosen by the blocks. -/
theorem Framed.choose {f : Walk → Walk}
    (h : ∀ blocks, ∃ g, Framed g ∧ ∀ walk : Walk, walk.blocks = blocks → f walk = g walk) : Framed f := by
  intro blocks
  obtain ⟨g, hg, heqChoice⟩ := h blocks
  obtain ⟨next, new, hnew, heq⟩ := hg blocks
  refine ⟨next, new, hnew, fun walk hblocks => ?_⟩
  rw [heqChoice walk hblocks, heq walk hblocks]

theorem framed_dropIf : Framed dropIf := by
  apply Framed.choose
  intro blocks
  unfold dropIf
  cases hinner : blocks.innermost? with
  | none => exact ⟨_, framed_id, fun walk hblocks => by simp [hblocks, hinner]⟩
  | some top =>
      by_cases hif : top.kind = .ifBlock
      · refine ⟨_, framed_blocks fun blocks => ((blocks.cancelEnd top.id).2.leave top.id).2, ?_⟩
        exact fun walk hblocks => by simp [hblocks, hinner, hif]
      · exact ⟨_, framed_id, fun walk hblocks => by simp [hblocks, hinner, hif]⟩

theorem framed_enter (marker : Marker) : Framed (·.enter marker) := by
  unfold enter
  split
  · exact framed_emit rfl
  · have hdrop := (framed_blocks (·.enter marker)).comp
      ((framed_emit (e := .alternative marker.block) rfl).comp framed_dropIf)
    exact hdrop
  · exact (framed_blocks (·.enter marker)).comp (framed_emit rfl)

theorem framed_close (kind : BlockKind) (id : Nat) (footer : Option String) :
    Framed (·.close kind id footer) :=
  (framed_blocks fun blocks => (blocks.leave id).2).comp (framed_emit rfl)

theorem framed_closeInside (outer bound : Nat) : Framed (closeInside outer bound) := by
  induction bound with
  | zero => exact framed_id
  | succ bound ih =>
      apply Framed.choose
      intro blocks
      unfold closeInside
      cases hinner : blocks.innermost? with
      | none => exact ⟨_, framed_id, fun walk hblocks => by simp [hblocks, hinner]⟩
      | some top =>
          by_cases hid : top.id = outer
          · exact ⟨_, framed_id, fun walk hblocks => by simp [hblocks, hinner, hid]⟩
          · have hclose := framed_close top.kind top.id ((blocks.cancelEnd top.id).1.bind (·.text))
            refine ⟨_, ih.comp (hclose.comp (framed_blocks fun _ => (blocks.cancelEnd top.id).2)), ?_⟩
            exact fun walk hblocks => by simp [hblocks, hinner, hid]

theorem framed_closeDue (horizon : Horizon) (bound : Nat) : Framed (closeDue horizon bound) := by
  induction bound with
  | zero => exact framed_id
  | succ bound ih =>
      apply Framed.choose
      intro blocks
      unfold closeDue
      cases htake : blocks.takeEnd? horizon with
      | some taken =>
          obtain ⟨marker, rest⟩ := taken
          have hclose := framed_close marker.kind marker.id marker.text
          refine ⟨_, ih.comp (hclose.comp (framed_blocks fun _ => rest)), ?_⟩
          exact fun walk hblocks => by simp [hblocks, htake]
      | none =>
          cases hblocked : blocks.blockedEnd? horizon with
          | none => exact ⟨_, framed_id, fun walk hblocks => by simp [hblocks, htake, hblocked]⟩
          | some outer =>
              refine ⟨_, ih.comp (framed_closeInside outer blocks.chain.length), ?_⟩
              exact fun walk hblocks => by simp [hblocks, htake, hblocked]

theorem framed_foldl_enter (markers : List Marker) : Framed (markers.foldl Walk.enter ·) := by
  induction markers with
  | nil => exact framed_id
  | cons marker rest ih => exact ih.comp (framed_enter marker)

theorem framed_openDue (horizon : Horizon) (deferred : Bool) : Framed (openDue horizon deferred) := by
  apply Framed.choose
  intro blocks
  have htake := framed_blocks fun _ => (blocks.takeBegins horizon deferred).2
  refine ⟨_, (framed_foldl_enter (blocks.takeBegins horizon deferred).1).comp htake, ?_⟩
  rintro walk rfl
  exact openDue_eq walk horizon deferred

theorem framed_closeAll (bound : Nat) : Framed (closeAll bound) := by
  induction bound with
  | zero => exact framed_id
  | succ bound ih =>
      apply Framed.choose
      intro blocks
      unfold closeAll
      cases htake : blocks.takeEnd? .unbounded with
      | some taken =>
          obtain ⟨marker, rest⟩ := taken
          have hclose := framed_close marker.kind marker.id marker.text
          refine ⟨_, ih.comp (hclose.comp (framed_blocks fun _ => rest)), ?_⟩
          exact fun walk hblocks => by simp [hblocks, htake]
      | none =>
          cases hinner : blocks.innermost? with
          | none => exact ⟨_, framed_id, fun walk hblocks => by simp [hblocks, htake, hinner]⟩
          | some top =>
              refine ⟨_, ih.comp (framed_close top.kind top.id none), ?_⟩
              exact fun walk hblocks => by simp [hblocks, htake, hinner]

/-- As many rounds as there are open blocks. -/
theorem Framed.rounds {f : Nat → Walk → Walk} (hf : ∀ bound, Framed (f bound)) :
    Framed fun walk => f walk.blocks.chain.length walk := by
  apply Framed.choose
  intro blocks
  refine ⟨_, hf blocks.chain.length, ?_⟩
  rintro walk rfl
  rfl

/-- Letting the markers that are due take effect depends on the blocks alone. -/
theorem framed_reconcile (cursor : Nat) : Framed (·.reconcile cursor) :=
  (framed_openDue (.upTo cursor) true).comp
    ((Framed.rounds (framed_closeDue (.upTo cursor))).comp (framed_openDue (.upTo cursor) false))

theorem framed_closing : Framed closing :=
  (Framed.rounds framed_closeAll).comp ((framed_openDue .unbounded true).comp (framed_openDue .unbounded false))

end Walk

/-!
### Statements

What an instruction comes to is the same in all walks that have the same blocks and the same instruction before it.
Only the name in a `goto` is looked up in the labels.
-/

namespace Walk

/-- The walk with other blocks, after another instruction. -/
def resume (walk : Walk) (blocks : Blocks) (previous : Option Opcode) : Walk := { walk with blocks, previous }

/-- The walk with more events. -/
def record (walk : Walk) (new : Array Event) : Walk := { walk with events := walk.events ++ new }

/-- What an instruction says. The name in a `goto` is that of a label. -/
inductive Saying where
  | silence
  | event (e : Event)
  | goto (lead : String) (target : Nat) (remark : Option String)

/-- The line of a `goto`. -/
def gotoLine (i : Instruction) (lead name : String) (remark : Option String) : Line where
  position := i.position
  text := s!"{lead}goto {name}"
  terminated := true
  postComment := remark

/-- Records what an instruction says. -/
def say (walk : Walk) (i : Instruction) : Saying → Walk
  | .silence => walk
  | .event e => walk.emit e
  | .goto lead target remark =>
    { walk with labels := (walk.labels.target target i.position).2 }.emit
      (.statement (gotoLine i lead (walk.labels.target target i.position).1 remark))

/-- What stands before the `goto` of a jump: nothing, or the condition of a jump back whose loop is closed already. -/
def IsLead (lead : String) : Prop := lead = "" ∨ ∃ condition : String, lead = s!"if(!({condition})) "

/-- What an instruction may say. A jump is a `goto`, a `continue`, or has no text of its own. -/
def Saying.Fits (i : Instruction) : Saying → Prop
  | .silence => True
  | .event e =>
    (∃ line, e = .statement line ∧ line.position = i.position ∧
      (i.branchTarget? ≠ none → line.text = "" ∨ line.text = "continue")) ∨
    ∃ error remark, e = .diagnostic i.position error remark
  | .goto lead target _ =>
    i.branchTarget? = some target ∧ IsLead lead

/-- The statement comes to the same whatever the labels and the events are. -/
def Uniform (walk : Walk) (body : Body) (index : Nat) (i : Instruction) (statement : Statement) : Prop :=
  ∀ labels events, { walk with labels, events }.perform body index i statement =
    ((walk.perform body index i statement).1,
      { walk with blocks := (walk.perform body index i statement).2.blocks, labels, events })

/-- The statement is a `goto` whatever the labels and the events are. -/
def UniformGoto (walk : Walk) (body : Body) (index : Nat) (i : Instruction) (statement : Statement) : Prop :=
  ∃ lead target, statement.jumpsTo? = some target ∧ IsLead lead ∧
    ∀ labels events, { walk with labels, events }.perform body index i statement =
      { walk with labels, events }.jumpTo i lead target

theorem branch_plan (walk : Walk) (body : Body) (index : Nat) (i : Instruction) (target : Nat)
    (condition : String) :
    (Uniform walk body index i (.branch target condition) ∧
        (walk.branch body i target condition).1.text = "") ∨
      UniformGoto walk body index i (.branch target condition) := by
  unfold Uniform UniformGoto perform branch
  by_cases huntil : i.isDoUntil = true
  · simp only [huntil, if_true]
    cases hfound : walk.blocks.findByCreator? .loop i.position with
    | some id => exact Or.inl ⟨fun labels events => rfl, rfl⟩
    | none => exact Or.inr ⟨_, target, rfl, Or.inr ⟨condition, rfl⟩, fun labels events => rfl⟩
  · by_cases hguard : body.isWhileGuard i = true
    · simp only [huntil, hguard, if_true]
      exact Or.inl ⟨fun labels events => rfl, rfl⟩
    · simp only [huntil, hguard]
      exact Or.inl ⟨fun labels events => rfl, rfl⟩

theorem jump_plan (walk : Walk) (body : Body) (index : Nat) (i : Instruction) (target : Nat) :
    (Uniform walk body index i (.jump target) ∧
        ((walk.jump i target).1.text = "" ∨ (walk.jump i target).1.text = "continue")) ∨
      UniformGoto walk body index i (.jump target) := by
  unfold Uniform UniformGoto perform jump
  -- All questions that a jump is asked are about the blocks.
  have hcloses : ∀ labels events, { walk with labels, events }.closesLoop i target = walk.closesLoop i target :=
    fun labels events => rfl
  have helse : ∀ labels events, { walk with labels, events }.entersElse i target = walk.entersElse i target :=
    fun labels events => rfl
  have hcontinues : ∀ labels events, { walk with labels, events }.continues i target = walk.continues i target :=
    fun labels events => rfl
  simp only [hcloses, helse, hcontinues]
  cases walk.closesLoop i target
  · cases isBreak target ((walk.blocks.innermostWhere? (·.isBreakable)).map (·.stop))
    · cases walk.entersElse i target
      · cases walk.continues i target
        · exact Or.inr ⟨"", target, rfl, Or.inl rfl, fun labels events => rfl⟩
        · exact Or.inl ⟨fun labels events => rfl, Or.inr rfl⟩
      · exact Or.inl ⟨fun labels events => rfl, Or.inl rfl⟩
    · exact Or.inl ⟨fun labels events => rfl, Or.inl rfl⟩
  · exact Or.inl ⟨fun labels events => rfl, Or.inl rfl⟩

/-- What a statement comes to is the same whatever the labels and the events are. -/
theorem perform_plan (walk : Walk) (body : Body) (index : Nat) (i : Instruction) (statement : Statement) :
    (Uniform walk body index i statement ∧
        (statement.jumpsTo? ≠ none → (walk.perform body index i statement).1.text = "" ∨
          (walk.perform body index i statement).1.text = "continue")) ∨
      UniformGoto walk body index i statement := by
  cases statement with
  | branch target condition =>
      exact (branch_plan walk body index i target condition).imp_left fun h => ⟨h.1, fun _ => Or.inl h.2⟩
  | jump target => exact (jump_plan walk body index i target).imp_left fun h => ⟨h.1, fun _ => h.2⟩
  | iteratorPop =>
      refine Or.inl ⟨?_, fun h => absurd rfl h⟩
      intro labels events
      simp only [perform, iteratorPop]
      by_cases hnext : walk.previous = some .iteratorNext
      · simp only [hnext, if_true]
        cases walk.blocks.innermostWhere? (· == .forEach) <;> rfl
      · simp only [hnext, if_false]
  | _ => exact Or.inl ⟨fun labels events => rfl, fun h => absurd rfl h⟩

/-- The line of a wording. -/
def Wording.line (wording : Wording) (i : Instruction) (remark : Option String) : Line where
  position := i.position
  text := wording.text
  terminated := wording.terminated
  preComment := wording.comment
  postComment := remark

/-- What an instruction says, and what it queues, is decided by the blocks and by the kind of the instruction before
    it. -/
theorem write_plan (setting : Setting) (index : Nat) (i : Instruction) (blocks : Blocks)
    (previous : Option Opcode) :
    ∃ said next, Saying.Fits i said ∧ ∀ walk : Walk, walk.blocks = blocks → walk.previous = previous →
      walk.write setting index i = (walk.say i said).resume next previous := by
  have hyields := i.statement_yields setting.words setting.scope (blocks.isInside .switch)
  unfold write
  dsimp only
  cases hrun : (i.statement setting.words setting.scope (blocks.isInside .switch)).run none with
  | error error remark =>
      refine ⟨.event (.diagnostic i.position error remark), blocks, Or.inr ⟨error, remark, rfl⟩, ?_⟩
      rintro walk rfl rfl
      rw [hrun]
      rfl
  | ok statement remark =>
      have hjumps := (hyields _ _ _ hrun).1
      -- Any walk will do to name what the statement comes to.
      let model : Walk := { blocks, previous }
      rcases model.perform_plan setting.body index i statement with
        ⟨huniform, htext⟩ | ⟨lead, target, hto, hlead, hgoto⟩
      · refine ⟨.event (.statement ((model.perform setting.body index i statement).1.line i remark)),
          (model.perform setting.body index i statement).2.blocks, Or.inl ⟨_, rfl, rfl, hjumps ▸ htext⟩, ?_⟩
        rintro ⟨_, labels, events, _⟩ rfl rfl
        have hperform := huniform labels events
        dsimp only [model] at hrun hperform ⊢
        simp only [hrun, hperform]
        rfl
      · refine ⟨.goto lead target remark, blocks, ⟨hjumps ▸ hto, hlead⟩, ?_⟩
        rintro ⟨_, labels, events, _⟩ rfl rfl
        have hperform := hgoto labels events
        dsimp only [model] at hrun hperform ⊢
        simp only [hrun, hperform]
        rfl

theorem writeLabel_previous (walk : Walk) (position : Nat) :
    (walk.writeLabel position).previous = walk.previous := by
  unfold Walk.writeLabel
  split
  split <;> rfl

/-- What a step comes to, but for the labels. -/
structure Outcome where
  said : Saying
  /-- Events of the markers that take effect. -/
  marks : Array Event
  blocks : Blocks
  previous : Option Opcode

/-- The step of an instruction that has the given outcome. -/
def Outcome.follow (outcome : Outcome) (i : Instruction) (walk : Walk) : Walk :=
  ((walk.writeLabel i.position).say i outcome.said).resume outcome.blocks outcome.previous
    |>.record outcome.marks

structure Outcome.Fits (outcome : Outcome) (i : Instruction) : Prop where
  said : Saying.Fits i outcome.said
  marks : ∀ e ∈ outcome.marks.toList, e.fromMarker = true

/-- The outcome of a step is decided by the blocks and by the kind of the instruction before it. -/
theorem exists_outcome (setting : Setting) (i : Instruction) (index : Nat) (blocks : Blocks)
    (previous : Option Opcode) :
    ∃ outcome : Outcome, outcome.Fits i ∧ ∀ walk : Walk, walk.blocks = blocks → walk.previous = previous →
      walk.step setting i index = outcome.follow i walk := by
  -- What the instruction says, up to the markers that are due.
  have hsays : ∃ said next later, Saying.Fits i said ∧ ∀ walk : Walk, walk.blocks = blocks →
      walk.previous = previous → walk.step setting i index =
        (((walk.writeLabel i.position).say i said).resume next later).reconcile i.endPosition := by
    unfold step
    by_cases hhidden : i.opcode.isHidden = true
    · refine ⟨.silence, blocks, previous, trivial, ?_⟩
      rintro walk rfl rfl
      simp only [hhidden, if_true]
      rw [← walk.writeLabel_blocks i.position, ← walk.writeLabel_previous i.position]
      rfl
    · by_cases himplicit : (setting.suppressImplicitReturn && setting.body.isImplicitReturn index) = true
      · refine ⟨.silence, blocks, some i.opcode, trivial, ?_⟩
        rintro walk rfl rfl
        simp only [hhidden, himplicit, if_true]
        rw [← walk.writeLabel_blocks i.position]
        rfl
      · obtain ⟨said, next, hfits, hwrite⟩ := write_plan setting index i blocks previous
        refine ⟨said, next, some i.opcode, hfits, fun walk hblocks hprevious => ?_⟩
        have hlabel := hwrite (walk.writeLabel i.position) ((writeLabel_blocks ..).trans hblocks)
          ((writeLabel_previous ..).trans hprevious)
        simp only [hhidden, himplicit, hlabel]
        rfl
  obtain ⟨said, middle, later, hsaid, hstep⟩ := hsays
  obtain ⟨next, marks, hmarks, hreconcile⟩ := framed_reconcile i.endPosition middle
  refine ⟨⟨said, marks, next, later⟩, ⟨hsaid, hmarks⟩, fun walk hblocks hprevious => ?_⟩
  rw [hstep walk hblocks hprevious]
  exact hreconcile _ rfl

end Walk

end ScriptBytecode
