/-
Module: ScriptBytecode.Proofs.Walk.Placement
Purpose: Where the words of control flow stand, whatever the jumps of a body lead to. A `break` stands inside a block
  that can be left, a `continue` inside a loop, a `case` inside a `switch`, right before its arm opens there, and an
  `until` at the end of the `do` loop that was opened for its jump. A jump back whose loop is closed already is a
  `goto`. Each is decided when the instruction is written and stands where markers take effect later; the invariant says
  which markers are queued and which loops are open in between.
Main exports: OpenBlock.IsDoOf, Setting.Placed, Setting.PlacedAll, Walk.Attended, Walk.Attended.step, Walk.Turn,
  Walk.Attended.placed_step, Setting.PlacesControl, decompile_placesControl
-/
import ScriptBytecode.Decompile
import ScriptBytecode.Proofs.Decoding.Conformance
import ScriptBytecode.Proofs.Walk.Outcomes
import ScriptBytecode.Proofs.Walk.Rerun

namespace ScriptBytecode

/-- The block is the `do` loop that a backward conditional jump ends. -/
structure OpenBlock.IsDoOf (block : OpenBlock) (i : Instruction) : Prop where
  kind : block.kind = .loop
  creator : block.creator = i.position
  start : i.jumpTarget? = some block.start
  stop : block.stop = i.endPosition

/-!
### Places
-/

namespace Setting

/-- A `break` follows the jump that it stands for, and the innermost block that can be left ends where the jump leads
    to. -/
def BreakPlaced (setting : Setting) (before : List Event) (text : String) : Prop :=
  text = "break;" ∧ ∃ i ∈ setting.body.instructions.toList, ∃ target earlier line chain block,
    i.token = .jump target ∧ before = earlier ++ [.statement line] ∧ line.position = i.position ∧ line.text = "" ∧
      openAfter before = some chain ∧ chain.find? (·.kind.isBreakable) = some block ∧ block.stop = target.toNat

/-- A footer closes the loop that was opened with `do` for its jump, and nothing but ends of blocks stands between the
    two. -/
def UntilPlaced (setting : Setting) (before : List Event) (kind : BlockKind) (id : Nat) (footer : String) : Prop :=
  ∃ i ∈ setting.body.instructions.toList, ∃ condition block outer earlier line closings,
    i.isDoUntil = true ∧ setting.Conditions i condition ∧ footer = s!"until({condition});" ∧
      openAfter before = some (block :: outer) ∧ kind = .loop ∧ block.id = id ∧ block.IsDoOf i ∧
      .opened block "do" ∈ before ∧ before = earlier ++ .statement line :: closings ∧ line.position = i.position ∧
      ∀ e ∈ closings, e.isClosing = true

/-- The innermost block that can be left is a loop or a `foreach`. -/
def ContinuePlaced (before : List Event) : Prop :=
  ∃ chain block, openAfter before = some chain ∧ chain.find? (·.kind.isBreakable) = some block ∧
    (block.kind = .loop ∨ block.kind = .forEach)

/-- A `switch` is open, and the arm opens next. -/
def ArmPlaced (setting : Setting) (before : List Event) (i : Instruction) (line : Line) (after : List Event) : Prop :=
  ∃ chain switch block rest, openAfter before = some chain ∧ switch ∈ chain ∧ switch.kind = .switch ∧
    after = .opened block "" :: rest ∧ block.creator = i.position ∧ setting.Arm i block.kind line.text

/-- The loop of a jump back was opened with `do`. Either it is open still and is closed next, together with what is open
    inside it, or it is not and the jump is a `goto`. -/
def JumpBackPlaced (setting : Setting) (before : List Event) (i : Instruction) (line : Line)
    (after : List Event) : Prop :=
  ∃ condition block chain, setting.Conditions i condition ∧ block.IsDoOf i ∧ .opened block "do" ∈ before ∧
    openAfter before = some chain ∧
    ((block ∈ chain ∧ line.text = "" ∧ ∃ closings rest, (∀ e ∈ closings, e.isClosing = true) ∧
        after = closings ++ .closed .loop block.id (some s!"until({condition});") :: rest) ∨
      ((∀ b ∈ chain, b.kind = .loop → b.creator ≠ i.position) ∧ line.terminated = true ∧
        ∃ name : String, line.text = s!"if(!({condition})) goto {name}"))

/-- An event stands where it may, given the events before it and after it. A line belongs to the instruction at its
    position. -/
def Placed (setting : Setting) (before : List Event) : Event → List Event → Prop
  | .broke text, _ => setting.BreakPlaced before text
  | .closed kind id (some footer), _ => setting.UntilPlaced before kind id footer
  | .statement line, after => (∃ i ∈ setting.body.instructions.toList, i.position = line.position) ∧
    ∀ i ∈ setting.body.instructions.toList, i.position = line.position →
      (∀ target, i.token = .jump target → line.text = "continue" → ContinuePlaced before) ∧
        (∀ target value, i.token = .caseLabel target value → setting.ArmPlaced before i line after) ∧
        (i.isDoUntil = true → setting.JumpBackPlaced before i line after)
  | _, _ => True

/-- All events stand where they may. -/
def PlacedAll (setting : Setting) (events : List Event) : Prop :=
  ∀ before e after, events = before ++ e :: after → setting.Placed before e after

end Setting

/-- An event that may stand anywhere. -/
def Event.isFree : Event → Bool
  | .broke _ | .closed _ _ (some _) | .statement _ => false
  | _ => true

theorem Event.isFree_of_isNote {e : Event} (h : e.isNote = true) : e.isFree = true := by
  cases e <;> first | rfl | cases h

namespace Setting

variable {setting : Setting} {before after events new : List Event} {e : Event}

theorem placed_of_isFree (h : e.isFree = true) : setting.Placed before e after := by
  cases e with
  | closed kind id footer =>
      cases footer with
      | none => trivial
      | some footer => cases h
  | broke _ | statement _ => cases h
  | _ => trivial

/-- More events may follow. -/
theorem Placed.more (h : setting.Placed before e after) (new : List Event) :
    setting.Placed before e (after ++ new) := by
  cases e with
  | statement line =>
      refine ⟨h.1, fun i hi hposition => ?_⟩
      obtain ⟨hcontinue, harm, hback⟩ := h.2 i hi hposition
      refine ⟨hcontinue, fun target value htoken => ?_, fun huntil => ?_⟩
      · obtain ⟨chain, switch, block, rest, hchain, hswitch, hkind, rfl, hrest⟩ := harm target value htoken
        exact ⟨chain, switch, block, rest ++ new, hchain, hswitch, hkind, rfl, hrest⟩
      · obtain ⟨condition, block, chain, hcondition, hblock, hopened, hchain, hplace⟩ := hback huntil
        refine ⟨condition, block, chain, hcondition, hblock, hopened, hchain, hplace.imp_left ?_⟩
        rintro ⟨hopen, htext, closings, rest, hclosings, rfl⟩
        exact ⟨hopen, htext, closings, rest ++ new, hclosings, by simp⟩
  | closed kind id footer =>
      cases footer with
      | none => trivial
      | some footer => exact h
  | broke _ => exact h
  | _ => trivial

theorem placedAll_append (h : setting.PlacedAll events)
    (hnew : ∀ before e after, new = before ++ e :: after → setting.Placed (events ++ before) e after) :
    setting.PlacedAll (events ++ new) := by
  intro before e after hsplit
  rcases List.append_eq_append_iff.1 hsplit with ⟨middle, rfl, hmiddle⟩ | ⟨middle, hbefore, hmiddle⟩
  · exact hnew middle e after hmiddle
  · cases middle with
    | nil =>
        rw [List.append_nil] at hbefore
        subst hbefore
        have hlast := hnew [] e after hmiddle.symm
        rwa [List.append_nil] at hlast
    | cons first middle =>
        obtain ⟨rfl, rfl⟩ := List.cons.inj hmiddle
        exact (h before e middle hbefore).more new

theorem placedAll_append_free (h : setting.PlacedAll events) (hfree : ∀ e ∈ new, e.isFree = true) :
    setting.PlacedAll (events ++ new) := by
  apply placedAll_append h
  rintro before e after rfl
  exact placed_of_isFree (hfree e (by simp))

end Setting

/-!
### Chains
-/

theorem openAfter_append (first second : List Event) :
    openAfter (first ++ second) = (openAfter first).bind (second.foldlM Event.follow ·) := by
  simp [openAfter, List.foldlM_append]

/-- Labels and diagnostics open and close nothing. -/
theorem openAfter_append_notes {events notes : List Event} (h : ∀ e ∈ notes, e.isNote = true) :
    openAfter (events ++ notes) = openAfter events := by
  have hfold : ∀ chain, notes.foldlM Event.follow chain = some chain := by
    intro chain
    induction notes with
    | nil => rfl
    | cons e rest ih =>
        have hfollow : e.follow chain = some chain := by
          have hnote := h e List.mem_cons_self
          cases e <;> first | rfl | cases hnote
        rw [List.foldlM_cons, hfollow]
        exact ih fun other hother => h other (List.mem_cons_of_mem _ hother)
  rw [openAfter_append]
  cases openAfter events with
  | none => rfl
  | some chain => exact hfold chain

theorem openAfter_statement (events : List Event) (line : Line) :
    openAfter (events ++ [.statement line]) = openAfter events := by
  rw [openAfter_concat]
  cases openAfter events <;> rfl

/-- What is open after blocks have closed was open before. -/
theorem mem_of_follow_closings {closings : List Event} (h : ∀ e ∈ closings, e.isClosing = true)
    {chain last : List OpenBlock} (hfollow : closings.foldlM Event.follow chain = some last) {b : OpenBlock}
    (hb : b ∈ last) : b ∈ chain := by
  induction closings generalizing chain with
  | nil =>
      cases hfollow
      exact hb
  | cons e rest ih =>
      rw [List.foldlM_cons, Option.bind_eq_bind, Option.bind_eq_some_iff] at hfollow
      obtain ⟨middle, hfirst, hrest⟩ := hfollow
      have hmiddle := ih (fun other hother => h other (List.mem_cons_of_mem _ hother)) hrest
      have hclosing := h e List.mem_cons_self
      cases e with
      | closed kind id footer =>
          cases chain with
          | nil => cases hfirst
          | cons top outer =>
              rw [Event.follow, Option.ite_none_right_eq_some] at hfirst
              obtain ⟨-, hfirst⟩ := hfirst
              cases hfirst
              exact List.mem_cons_of_mem _ hmiddle
      | _ => cases hclosing

/-- A block that closes is the innermost one. -/
theorem exists_top_of_closed {before after : List Event} {kind : BlockKind} {id : Nat} {footer : Option String}
    {chain : List OpenBlock} (h : openAfter (before ++ .closed kind id footer :: after) = some chain) :
    ∃ top outer, openAfter before = some (top :: outer) ∧ top.kind = kind ∧ top.id = id := by
  rw [openAfter_append] at h
  obtain ⟨middle, hmiddle, hrest⟩ := Option.bind_eq_some_iff.1 h
  rw [List.foldlM_cons, Option.bind_eq_bind, Option.bind_eq_some_iff] at hrest
  obtain ⟨next, hclosed, -⟩ := hrest
  cases middle with
  | nil => cases hclosed
  | cons top outer =>
      rw [Event.follow, Option.ite_none_right_eq_some] at hclosed
      exact ⟨top, outer, hmiddle, hclosed.1⟩

/-!
### Between two instructions
-/

theorem Marker.isFree_effect {m : Marker} (h : m.side = .opening → m.kind ≠ .switchBreak)
    (htext : m.side = .closing → m.text = none) : m.effect.isFree = true := by
  unfold effect
  split
  · rename_i hside
    rw [htext hside]
    rfl
  · rename_i hside
    have hkind := h hside
    split
    · exact absurd ‹_› hkind
    · rfl
    · rfl

namespace Walk

/-- What a walk keeps between two instructions. Ends have no footers; begins are those of `do` loops; each of these
    loops is queued or has been opened; and an open loop that was made by a jump back was opened for it. -/
structure Attended (setting : Setting) (walk : Walk) : Prop where
  ends : ∀ m ∈ walk.blocks.pending, m.side = .closing → m.text = none
  begins : ∀ m ∈ walk.blocks.openings, m.text = some "do" ∧
    ∃ i ∈ setting.body.instructions.toList, i.isDoUntil = true ∧ m.block.IsDoOf i
  untils : ∀ i ∈ setting.body.instructions.toList, i.isDoUntil = true → ∃ block : OpenBlock, block.IsDoOf i ∧
    ((∃ m ∈ walk.blocks.openings, m.block = block) ∨ .opened block "do" ∈ walk.events.toList)
  loops : ∀ b ∈ walk.blocks.chain, b.kind = .loop → ∀ i ∈ setting.body.instructions.toList, i.isDoUntil = true →
    b.creator = i.position → b.IsDoOf i ∧ .opened b "do" ∈ walk.events.toList

variable {setting : Setting} {walk next : Walk} {i : Instruction} {new : List Event}

theorem side_of_mem_openings {blocks : Blocks} {m : Marker} (hm : m ∈ blocks.openings) : m.side = .opening := by
  simpa using (List.mem_filter.1 hm).2

theorem Attended.effect_eq (h : walk.Attended setting) {m : Marker} (hm : m ∈ walk.blocks.openings) :
    m.effect = .opened m.block "do" := by
  obtain ⟨htext, i, -, -, hblock⟩ := h.begins m hm
  rw [Marker.effect_of_loop (side_of_mem_openings hm) hblock.kind, htext]
  rfl

/-- What takes effect between two instructions may stand anywhere. -/
theorem Attended.isFree {middle : Walk} (h : walk.Attended setting) (hblocks : middle.blocks = walk.blocks)
    (heffect : TakesEffect middle next new) : ∀ e ∈ new, e.isFree = true := by
  intro e he
  rcases heffect.source e he with ⟨m, hm, rfl⟩ | ⟨kind, id, rfl⟩
  · rw [hblocks] at hm
    refine Marker.isFree_effect (fun hside hkind => ?_) (h.ends m hm)
    obtain ⟨-, i, -, -, hblock⟩ := h.begins m (List.mem_filter.2 ⟨hm, by rw [hside]; rfl⟩)
    cases hkind.symm.trans hblock.kind
  · rfl

/-- An instruction is written: begins are queued that are not of `do` loops. -/
structure Grows (setting : Setting) (walk middle : Walk) : Prop where
  events : ∃ said, middle.events.toList = walk.events.toList ++ said
  chain : middle.blocks.chain = walk.blocks.chain
  kept : ∀ m ∈ walk.blocks.openings, m ∈ middle.blocks.openings
  made : ∀ m ∈ middle.blocks.openings, m ∈ walk.blocks.openings ∨ m.deferred = false ∧
    (m.kind = .loop → ∀ i ∈ setting.body.instructions.toList, i.isDoUntil = true → m.creator ≠ i.position)

theorem Grows.refl (setting : Setting) (walk : Walk) : Grows setting walk walk where
  events := ⟨[], (List.append_nil _).symm⟩
  chain := rfl
  kept _ hm := hm
  made _ hm := Or.inl hm

theorem Settled.utter_chain (h : walk.Settled) (setting : Setting) (i : Instruction) (index : Nat) :
    (walk.utter setting i index).blocks.chain = walk.blocks.chain := by
  rw [(h.utter setting i index).2.chain, writeLabel_blocks]

variable {position offset : Nat}

theorem Settled.grows_utter (h : walk.Settled) (htiles : Tiles position offset setting.body.instructions.toList)
    (hi : i ∈ setting.body.instructions.toList) (index : Nat) : Grows setting walk (walk.utter setting i index) := by
  obtain ⟨notes, said, hevents, -, hspeech⟩ := utter_speech setting walk i index
  constructor
  · exact ⟨_, hevents⟩
  · exact h.utter_chain setting i index
  · intro m hm
    rcases hspeech.oneMore with hopenings | ⟨new, hopenings, -⟩
    · rwa [hopenings]
    · rw [hopenings]
      exact List.mem_append_left _ hm
  · intro m hm
    rcases hspeech.oneMore with hopenings | ⟨new, hopenings, hplain, hcreator, hloop⟩
    · exact Or.inl (hopenings ▸ hm)
    · rw [hopenings, List.mem_append, List.mem_singleton] at hm
      rcases hm with hm | rfl
      · exact Or.inl hm
      · refine Or.inr ⟨hplain, fun hkind j hj huntil hsame => ?_⟩
        obtain rfl := htiles.eq_of_position hi hj (hcreator.symm.trans hsame)
        rw [hloop hkind] at huntil
        cases huntil

/-- The invariant is kept when an instruction is written and markers take effect, provided that the ends that stay have
    no footers and that only begins of `do` loops stay. -/
theorem Attended.after {middle : Walk} (h : walk.Attended setting)
    (htiles : Tiles position offset setting.body.instructions.toList) (hgrows : Grows setting walk middle)
    (heffect : TakesEffect middle next new) (hsettled : next.Settled)
    (hends : ∀ m ∈ next.blocks.pending, m.side = .closing → m.text = none) : next.Attended setting := by
  have hevents : ∀ e ∈ walk.events.toList, e ∈ next.events.toList := by
    intro e he
    obtain ⟨said, hsaid⟩ := hgrows.events
    rw [heffect.events, hsaid]
    exact List.mem_append_left _ (List.mem_append_left _ he)
  have hnew : ∀ e ∈ new, e ∈ next.events.toList := fun e he => heffect.events ▸ List.mem_append_right _ he
  constructor
  · exact hends
  · intro m hm
    rcases hgrows.made m (heffect.openings hm) with hold | ⟨hplain, -⟩
    · exact h.begins m hold
    · cases hplain.symm.trans (hsettled.begins m hm).1
  · intro j hj huntil
    obtain ⟨block, hblock, ⟨m, hm, rfl⟩ | hopened⟩ := h.untils j hj huntil
    · refine ⟨m.block, hblock, ?_⟩
      rcases heffect.begins m (hgrows.kept m hm) with hkept | hdone
      · exact Or.inl ⟨m, hkept, rfl⟩
      · exact Or.inr (hnew _ (h.effect_eq hm ▸ hdone))
    · exact ⟨block, hblock, Or.inr (hevents _ hopened)⟩
  · intro b hb hkind j hj huntil hcreator
    rcases heffect.chain b hb with hopen | ⟨m, hm, rfl, hdone⟩
    · obtain ⟨hblock, hopened⟩ := h.loops b (hgrows.chain ▸ hopen) hkind j hj huntil hcreator
      exact ⟨hblock, hevents _ hopened⟩
    · rcases hgrows.made m hm with hold | ⟨-, hloop⟩
      · obtain ⟨-, owner, howner, -, hblock⟩ := h.begins m hold
        obtain rfl := htiles.eq_of_position howner hj (hblock.creator.symm.trans hcreator)
        exact ⟨hblock, hnew _ (h.effect_eq hold ▸ hdone)⟩
      · exact absurd hcreator (hloop hkind j hj huntil)

theorem UpToDate.step (h : walk.UpToDate i.position)
    (htiles : Tiles position offset setting.body.instructions.toList) (hi : i ∈ setting.body.instructions.toList)
    (index : Nat) : (walk.step setting i index).UpToDate i.endPosition :=
  upToDate_step h (Nat.lt_add_of_pos_right (htiles.nonempty hi).1) setting index

theorem Attended.step (h : walk.Attended setting) (htiles : Tiles position offset setting.body.instructions.toList)
    (hi : i ∈ setting.body.instructions.toList) (hcurrent : walk.UpToDate i.position) (index : Nat) :
    (walk.step setting i index).Attended setting := by
  have hafter := hcurrent.step htiles hi index
  obtain ⟨closings, loops, heffect, -⟩ := (hcurrent.utter setting i index).1.takesEffect_reconcile
  refine h.after htiles (hcurrent.grows_utter htiles hi index) heffect hafter.toSettled fun m hm hside => ?_
  obtain ⟨notes, said, -, -, hspeech⟩ := utter_speech setting walk i index
  rcases hspeech.ends_cases (heffect.pending.subset hm) hside with hold | hnone | huntil
  · exact h.ends m hold hside
  · exact hnone
  · -- The end of a `do` loop is due at once.
    exact absurd (hafter.ahead m hm) (Nat.not_lt.2 (Nat.le_of_eq huntil.2.2.1))

/-!
### One instruction
-/

/-- An instruction that is written: the walk before it, once its line stands, and once markers have taken effect. -/
structure Turn (setting : Setting) (i : Instruction) (line : Line) (walk middle next : Walk)
    (notes closings loops : List Event) : Prop where
  attended : walk.Attended setting
  before : walk.UpToDate i.position
  after : next.UpToDate i.endPosition
  position : line.position = i.position
  comes : Comes setting walk.blocks i line middle.blocks
  noted : ∀ e ∈ notes, e.isNote = true
  events : middle.events.toList = walk.events.toList ++ (notes ++ [.statement line])
  effect : TakesEffect middle next (middle.plainBegins.map Marker.effect ++ (closings ++ loops))
  closing : ∀ e ∈ closings, e.isClosing = true
  opening : ∀ e ∈ loops, ∃ m ∈ middle.blocks.openings, m.kind = .loop ∧ e = m.effect
  ends : middle.plainBegins = [] → ∀ m ∈ middle.blocks.pending, m.side = .closing →
    m ∈ next.blocks.pending ∨ m.effect ∈ closings

/-- The begins that an instruction has added are the plain ones. -/
theorem Settled.plainBegins_eq {middle : Walk} (h : walk.Settled) {markers : List Marker}
    (hopenings : middle.blocks.openings = walk.blocks.openings ++ markers)
    (hplain : ∀ m ∈ markers, m.deferred = false) : middle.plainBegins = markers := by
  have hold : walk.blocks.openings.filter (!·.deferred) = [] :=
    List.filter_eq_nil_iff.2 fun m hm => by simp [(h.begins m hm).1]
  rw [plainBegins, hopenings, List.filter_append, hold, List.nil_append]
  exact List.filter_eq_self.2 fun m hm => by rw [hplain m hm]; rfl

theorem Settled.plainBegins_eq_nil {middle : Walk} (h : walk.Settled)
    (hopenings : middle.blocks.openings = walk.blocks.openings) : middle.plainBegins = [] :=
  h.plainBegins_eq (hopenings.trans (List.append_nil _).symm) fun _ hm => absurd hm List.not_mem_nil

namespace Turn

variable {middle : Walk} {line : Line} {notes closings loops : List Event}

/-- What is open where the line stands. -/
theorem open_before (h : Turn setting i line walk middle next notes closings loops) :
    openAfter (walk.events.toList ++ notes) = some walk.blocks.chain := by
  rw [openAfter_append_notes h.noted, h.before.follows]

theorem open_after (h : Turn setting i line walk middle next notes closings loops) :
    openAfter (walk.events.toList ++ notes ++ [.statement line]) = some walk.blocks.chain := by
  rw [openAfter_statement, h.open_before]

theorem events_eq (h : Turn setting i line walk middle next notes closings loops) :
    next.events.toList = walk.events.toList ++ notes ++
      .statement line :: (middle.plainBegins.map Marker.effect ++ (closings ++ loops)) := by
  rw [h.effect.events, h.events]
  simp

/-- A loop that opens writes its `do`. -/
theorem isFree_of_mem_loops (h : Turn setting i line walk middle next notes closings loops) {e : Event}
    (he : e ∈ loops) : e.isFree = true ∧ e.isClosing = false := by
  obtain ⟨m, hm, hkind, rfl⟩ := h.opening e he
  rw [Marker.effect_of_loop (side_of_mem_openings hm) hkind]
  exact ⟨rfl, rfl⟩

/-- A `break` follows the line of its jump, while what it leaves is open. -/
theorem broke_placed (h : Turn setting i line walk middle next notes closings loops)
    (hi : i ∈ setting.body.instructions.toList) {before after : List Event} {text : String}
    (hsplit : middle.plainBegins.map Marker.effect ++ (closings ++ loops) = before ++ .broke text :: after) :
    setting.BreakPlaced (walk.events.toList ++ notes ++ .statement line :: before) text := by
  have hlater : .broke text ∉ closings ++ loops := by
    intro he
    rcases List.mem_append.1 he with he | he
    · cases h.closing _ he
    · cases (h.isFree_of_mem_loops he).1
  have hmore := h.comes.oneMore
  -- It is the begin that the instruction has queued, since after that there are ends and loops only.
  obtain ⟨m, hbegins, rfl, heffect⟩ : ∃ m, middle.plainBegins = [m] ∧ before = [] ∧ m.effect = .broke text := by
    rcases hmore with hsame | ⟨m, hopenings, hplain, -⟩
    · rw [h.before.plainBegins_eq_nil hsame, List.map_nil, List.nil_append] at hsplit
      exact absurd (hsplit ▸ by simp) hlater
    · have hone : middle.plainBegins = [m] := h.before.plainBegins_eq hopenings fun other hother => by
        rwa [List.mem_singleton.1 hother]
      rw [hone, List.map_singleton, List.singleton_append] at hsplit
      cases before with
      | nil => exact ⟨m, hone, rfl, (List.cons.inj hsplit).1⟩
      | cons first before => exact absurd ((List.cons.inj hsplit).2 ▸ by simp) hlater
  obtain ⟨hkind, htext⟩ := Marker.of_effect_broke heffect
  have hm : m ∈ middle.blocks.openings :=
    List.mem_of_mem_filter (show m ∈ middle.plainBegins from hbegins ▸ List.mem_singleton_self m)
  rcases h.comes.of_break hm hkind with hold | ⟨hbreak, hempty, target, block, htoken, hblock, hstop⟩
  · cases hkind.symm.trans (h.before.begins m hold).2
  · rw [hbreak] at htext
    exact ⟨htext, i, hi, target, _, line, walk.blocks.chain, block, htoken, rfl, h.position, hempty, h.open_after,
      hblock, hstop⟩

/-- A jump back queues no begin. -/
theorem plainBegins_of_isDoUntil (h : Turn setting i line walk middle next notes closings loops)
    (huntil : i.isDoUntil = true) : middle.plainBegins = [] := by
  apply h.before.plainBegins_eq_nil
  obtain ⟨condition, -, ⟨id, -, -, hblocks⟩ | ⟨-, -, hblocks, -⟩⟩ := h.comes.of_isDoUntil huntil
  · rw [hblocks, Blocks.openings_queueEnd]
  · rw [hblocks]

/-- Ends stand before loops. -/
theorem closing_of_split (h : Turn setting i line walk middle next notes closings loops) {before after : List Event}
    {e : Event} (he : e.isClosing = true) (hsplit : closings ++ loops = before ++ e :: after) :
    ∀ earlier ∈ before, earlier.isClosing = true := by
  intro earlier hearlier
  rcases List.append_eq_append_iff.1 hsplit with ⟨middle, hbefore, hloops⟩ | ⟨middle, hclosings, -⟩
  · have hmem : e ∈ loops := hloops ▸ by simp
    cases he.symm.trans (h.isFree_of_mem_loops hmem).2
  · exact h.closing earlier (hclosings ▸ List.mem_append_left _ hearlier)

/-- The loop that a jump back ends was opened for it, and is open. -/
theorem exists_loop (h : Turn setting i line walk middle next notes closings loops)
    (hi : i ∈ setting.body.instructions.toList) (huntil : i.isDoUntil = true) {id : Nat}
    (hfound : walk.blocks.findByCreator? .loop i.position = some id) :
    ∃ block ∈ walk.blocks.chain, block.id = id ∧ block.IsDoOf i ∧ .opened block "do" ∈ walk.events.toList := by
  obtain ⟨⟨block, hopen, hid, hcreator⟩, -⟩ := h.before.loop_of_creator hfound
  have hkind := (fits_of_findByCreator h.before.numbered hfound).chain block hopen hid
  obtain ⟨hblock, hopened⟩ := h.attended.loops block hopen hkind i hi huntil hcreator
  exact ⟨block, hopen, hid, hblock, hopened⟩

/-- A footer is that of the loop of the jump, which has been open since its `do`. -/
theorem closed_placed (h : Turn setting i line walk middle next notes closings loops)
    (hi : i ∈ setting.body.instructions.toList) {before after : List Event} {kind : BlockKind} {id : Nat}
    {footer : String} (hsplit : middle.plainBegins.map Marker.effect ++ (closings ++ loops) =
      before ++ .closed kind id (some footer) :: after) :
    setting.UntilPlaced (walk.events.toList ++ notes ++ .statement line :: before) kind id footer := by
  obtain ⟨m, hm, heffect⟩ | ⟨_, _, hnone⟩ := h.effect.source (.closed kind id (some footer)) (hsplit ▸ by simp)
  · obtain ⟨hside, rfl, rfl, hfooter⟩ := Marker.of_effect_closed heffect.symm
    rcases h.comes.ends_cases hm hside with hold | hnone | ⟨huntil, hkind, -, hfound, condition, hcondition, htext⟩
    · cases (h.attended.ends m hold hside).symm.trans hfooter
    · cases hnone.symm.trans hfooter
    · have hevents := h.events_eq
      rw [hsplit, ← List.cons_append, ← List.append_assoc] at hevents
      rw [h.plainBegins_of_isDoUntil huntil, List.map_nil, List.nil_append] at hsplit
      have hbefore := h.closing_of_split rfl hsplit
      -- Only ends stand between the line and the footer, so what closes was open at the line.
      obtain ⟨top, outer, hopen, -, htop⟩ := exists_top_of_closed (hevents ▸ h.after.follows)
      have hmem : top ∈ walk.blocks.chain := by
        have hfollow := hopen
        rw [← List.singleton_append, ← List.append_assoc, openAfter_append, h.open_after] at hfollow
        exact mem_of_follow_closings hbefore hfollow List.mem_cons_self
      obtain ⟨block, hblock, hid, hloop, hopened⟩ := h.exists_loop hi huntil hfound
      obtain rfl := h.before.numbered.eq_of_id hmem hblock (htop.trans hid.symm)
      refine ⟨i, hi, condition, top, outer, walk.events.toList ++ notes, line, before, huntil, hcondition, ?_, hopen,
        hkind, hid, hloop, ?_, rfl, h.position, hbefore⟩
      · exact Option.some.inj (hfooter.symm.trans htext)
      · exact List.mem_append_left _ (List.mem_append_left _ hopened)
  · cases hnone

/-- A `case` opens its arm right away. -/
theorem arm_placed (h : Turn setting i line walk middle next notes closings loops) {target : UInt16}
    {value : Option Instruction} (htoken : i.token = .caseLabel target value) :
    setting.ArmPlaced (walk.events.toList ++ notes) i line
      (middle.plainBegins.map Marker.effect ++ (closings ++ loops)) := by
  obtain ⟨kind, stop, harm, hinside, hblocks⟩ := h.comes.of_caseLabel htoken
  obtain ⟨switch, hswitch, hkind⟩ := List.any_eq_true.1 hinside
  have hbegins : middle.plainBegins = [walk.blocks.newBegin kind i.endPosition i.position stop none false] := by
    refine h.before.plainBegins_eq ?_ fun m hm => by rw [List.mem_singleton.1 hm]; rfl
    rw [hblocks, Blocks.queueBlock, Blocks.openings_queueEnd, Blocks.openings_queueBegin]
  refine ⟨walk.blocks.chain, switch, (walk.blocks.newBegin kind i.endPosition i.position stop none false).block,
    closings ++ loops, h.open_before, hswitch, beq_iff_eq.1 hkind, ?_, rfl, harm⟩
  rw [hbegins]
  rcases harm.kind_cases with rfl | rfl <;> rfl

/-- A jump back closes its loop right away if that is open. -/
theorem jumpBack_placed (h : Turn setting i line walk middle next notes closings loops)
    (hi : i ∈ setting.body.instructions.toList) (huntil : i.isDoUntil = true) :
    setting.JumpBackPlaced (walk.events.toList ++ notes) i line
      (middle.plainBegins.map Marker.effect ++ (closings ++ loops)) := by
  have hnone := h.plainBegins_of_isDoUntil huntil
  obtain ⟨condition, hcondition, hcases⟩ := h.comes.of_isDoUntil huntil
  rcases hcases with ⟨id, hfound, htext, hblocks⟩ | ⟨hmissing, hterminated, -, name, htext⟩
  · obtain ⟨block, hopen, rfl, hloop, hopened⟩ := h.exists_loop hi huntil hfound
    have hdone : .closed .loop block.id (some s!"until({condition});") ∈ closings := by
      have hm : walk.blocks.newEnd .loop block.id i.endPosition (some s!"until({condition});") ∈
          middle.blocks.pending := hblocks ▸ List.mem_append_right _ (List.mem_singleton_self _)
      rcases h.ends hnone _ hm rfl with hkept | hdone
      · exact absurd (h.after.ahead _ hkept) (Nat.lt_irrefl _)
      · exact hdone
    obtain ⟨earlier, rest, rfl⟩ := List.append_of_mem hdone
    refine ⟨condition, block, walk.blocks.chain, hcondition, hloop, List.mem_append_left _ hopened, h.open_before,
      Or.inl ⟨hopen, htext, earlier, rest ++ loops, ?_, ?_⟩⟩
    · exact fun e he => h.closing e (List.mem_append_left _ he)
    · rw [hnone]
      simp
  · obtain ⟨block, hloop, ⟨m, hm, rfl⟩ | hopened⟩ := h.attended.untils i hi huntil
    · -- A loop that begins at the jump or before it is not queued any more.
      exact absurd (h.before.ahead m (List.mem_of_mem_filter hm)) (Nat.not_lt.2 (le_of_isDoUntil huntil hloop.start))
    · refine ⟨condition, block, walk.blocks.chain, hcondition, hloop, List.mem_append_left _ hopened, h.open_before,
        Or.inr ⟨fun b hb hkind hcreator => ?_, hterminated, name, htext⟩⟩
      have hopen := Option.map_eq_none_iff.1 (Option.or_eq_none_iff.1 hmissing).1
      have hother := List.find?_eq_none.1 hopen b (List.mem_reverse.2 hb)
      simp [hkind, hcreator] at hother

/-- All that is recorded for an instruction stands where it may. -/
theorem placed (h : Turn setting i line walk middle next notes closings loops)
    (htiles : Tiles position offset setting.body.instructions.toList) (hi : i ∈ setting.body.instructions.toList)
    (hplaced : setting.PlacedAll walk.events.toList) : setting.PlacedAll next.events.toList := by
  rw [h.events_eq]
  apply Setting.placedAll_append
  · exact Setting.placedAll_append_free hplaced fun e he => Event.isFree_of_isNote (h.noted e he)
  · intro before e after hsplit
    cases before with
    | nil =>
        obtain ⟨rfl, rfl⟩ := List.cons.inj hsplit
        rw [List.append_nil]
        refine ⟨⟨i, hi, h.position.symm⟩, fun j hj hposition => ?_⟩
        obtain rfl := htiles.eq_of_position hi hj (h.position.symm.trans hposition.symm)
        refine ⟨fun target htoken htext => ?_, fun target value htoken => h.arm_placed htoken, h.jumpBack_placed hi⟩
        obtain ⟨block, hblock, hkind⟩ := h.comes.of_continue htoken htext
        exact ⟨walk.blocks.chain, block, h.open_before, hblock, hkind⟩
    | cons first before =>
        obtain ⟨rfl, hmarks⟩ := List.cons.inj hsplit
        cases e with
        | broke text => exact h.broke_placed hi hmarks
        | closed kind id footer =>
            cases footer with
            | none => trivial
            | some footer => exact h.closed_placed hi hmarks
        | statement other =>
            obtain ⟨m, -, heffect⟩ | ⟨_, _, hnone⟩ := h.effect.source (.statement other) (hmarks ▸ by simp)
            · exact absurd heffect.symm (Marker.effect_ne_statement m other)
            · cases hnone
        | _ => trivial

end Turn

/-- A step keeps everything where it may stand. -/
theorem Attended.placed_step (h : walk.Attended setting)
    (htiles : Tiles position offset setting.body.instructions.toList) (hi : i ∈ setting.body.instructions.toList)
    (hcurrent : walk.UpToDate i.position) (index : Nat) (hplaced : setting.PlacedAll walk.events.toList) :
    setting.PlacedAll (walk.step setting i index).events.toList := by
  have hafter := hcurrent.step htiles hi index
  obtain ⟨notes, said, hevents, hnotes, hspeech⟩ := utter_speech setting walk i index
  obtain ⟨closings, loops, heffect, hclosing, hopening, hends⟩ :=
    (hcurrent.utter setting i index).1.takesEffect_reconcile
  rcases hspeech with ⟨hblocks, hsaid⟩ | ⟨line, rfl, hposition, hcomes⟩
  · rw [step_eq_utter, heffect.events, hevents]
    apply Setting.placedAll_append_free _ (h.isFree hblocks heffect)
    apply Setting.placedAll_append_free hplaced
    exact fun e he => Event.isFree_of_isNote ((List.mem_append.1 he).elim (hnotes e) (hsaid e))
  · have hturn : Turn setting i line walk (walk.utter setting i index) (walk.step setting i index) notes closings
        loops :=
      ⟨h, hcurrent, hafter, hposition, hcomes, hnotes, hevents, heffect, hclosing, hopening, hends⟩
    exact hturn.placed htiles hi hplaced

/-- What has been written stays. -/
theorem Settled.mem_step (h : walk.Settled) (index : Nat) {e : Event}
    (he : e ∈ (walk.utter setting i index).events.toList) : e ∈ (walk.step setting i index).events.toList := by
  obtain ⟨closings, loops, heffect, -⟩ := (h.utter setting i index).1.takesEffect_reconcile
  rw [step_eq_utter, heffect.events]
  exact List.mem_append_left _ he

/-!
### The ends of a walk
-/

theorem exists_jumpTarget (h : i.isDoUntil = true) : ∃ target, i.jumpTarget? = some target := by
  unfold Instruction.isDoUntil at h
  split at h
  · rename_i htoken
    rw [Instruction.jumpTarget?, htoken]
    exact ⟨_, rfl⟩
  · cases h

/-- The begin that is queued for a jump back. -/
theorem isDoOf_newBegin (blocks : Blocks) {target : Nat} (htarget : i.jumpTarget? = some target) :
    (blocks.newBegin .loop target i.position i.endPosition (some "do") true).block.IsDoOf i :=
  ⟨rfl, rfl, htarget, rfl⟩

/-- Jumps back queue their loops, and nothing else is queued. -/
theorem begins_queueDoLoop (untils : List Instruction) (blocks : Blocks) :
    (∀ m ∈ (untils.foldl queueDoLoop blocks).openings,
      m ∈ blocks.openings ∨ m.text = some "do" ∧ ∃ i ∈ untils, m.block.IsDoOf i) ∧
    (∀ m ∈ blocks.openings, m ∈ (untils.foldl queueDoLoop blocks).openings) ∧
    ∀ i ∈ untils, i.isDoUntil = true → ∃ m ∈ (untils.foldl queueDoLoop blocks).openings, m.block.IsDoOf i := by
  induction untils generalizing blocks with
  | nil => exact ⟨fun m hm => Or.inl hm, fun m hm => hm, fun i hi => absurd hi List.not_mem_nil⟩
  | cons i rest ih =>
      obtain ⟨hmade, hkept, hall⟩ := ih (queueDoLoop blocks i)
      have hfirst : (∀ m ∈ (queueDoLoop blocks i).openings,
          m ∈ blocks.openings ∨ m.text = some "do" ∧ m.block.IsDoOf i) ∧
          (∀ m ∈ blocks.openings, m ∈ (queueDoLoop blocks i).openings) ∧
          (i.isDoUntil = true → ∃ m ∈ (queueDoLoop blocks i).openings, m.block.IsDoOf i) := by
        unfold queueDoLoop
        cases htarget : i.jumpTarget? with
        | none =>
            refine ⟨fun m hm => Or.inl hm, fun m hm => hm, fun huntil => ?_⟩
            obtain ⟨target, hsome⟩ := exists_jumpTarget huntil
            cases htarget.symm.trans hsome
        | some target =>
            have hblock := isDoOf_newBegin blocks htarget
            dsimp only
            rw [Blocks.openings_queueBegin]
            refine ⟨fun m hm => ?_, fun m hm => List.mem_append_left _ hm, fun _ => ⟨_, by simp, hblock⟩⟩
            rcases List.mem_append.1 hm with hm | hm
            · exact Or.inl hm
            · obtain rfl := List.mem_singleton.1 hm
              exact Or.inr ⟨rfl, hblock⟩
      rw [List.foldl_cons]
      refine ⟨fun m hm => ?_, fun m hm => hkept m (hfirst.2.1 m hm), fun j hj huntil => ?_⟩
      · rcases hmade m hm with hm | ⟨htext, j, hj, hblock⟩
        · exact (hfirst.1 m hm).imp_right fun hnew => ⟨hnew.1, i, List.mem_cons_self, hnew.2⟩
        · exact Or.inr ⟨htext, j, List.mem_cons_of_mem _ hj, hblock⟩
      · rcases List.mem_cons.1 hj with rfl | hj
        · obtain ⟨m, hm, hblock⟩ := hfirst.2.2 huntil
          exact ⟨m, hkept m hm, hblock⟩
        · exact hall j hj huntil

/-- Before the first instruction each jump back has queued its loop. -/
theorem attended_queueDoLoops (setting : Setting) (seeds : List Nat) :
    (((registerStates setting {}).registerSeeds seeds).queueDoLoops setting).Attended setting := by
  obtain ⟨hmade, -, hall⟩ := begins_queueDoLoop (setting.body.instructions.toList.filter (·.isDoUntil)) {}
  have hchain : (((registerStates setting {}).registerSeeds seeds).queueDoLoops setting).blocks.chain = [] :=
    (Option.some.inj (settled_queueDoLoops setting seeds).follows).symm
  constructor
  · intro m hm hside
    cases (mem_queueDoLoops rfl hm).1.symm.trans hside
  · intro m hm
    rcases hmade m hm with hm | ⟨htext, i, hi, hblock⟩
    · cases hm
    · obtain ⟨hmem, huntil⟩ := List.mem_filter.1 hi
      exact ⟨htext, i, hmem, huntil, hblock⟩
  · intro i hi huntil
    obtain ⟨m, hm, hblock⟩ := hall i (List.mem_filter.2 ⟨hi, huntil⟩) huntil
    exact ⟨m.block, hblock, Or.inl ⟨m, hm, rfl⟩⟩
  · intro b hb
    rw [hchain] at hb
    cases hb

theorem attended_prepare (htiles : Tiles position offset setting.body.instructions.toList) (seeds : List Nat) :
    (prepare setting seeds).Attended setting ∧ setting.PlacedAll (prepare setting seeds).events.toList := by
  have hqueued := attended_queueDoLoops setting seeds
  obtain ⟨closings, loops, heffect, -⟩ := ((settled_queueDoLoops setting seeds).poised 0).takesEffect_reconcile
  constructor
  · exact hqueued.after htiles (.refl setting _) heffect (settled_prepare setting seeds)
      fun m hm hside => hqueued.ends m (heffect.pending.subset hm) hside
  · rw [prepare, heffect.events]
    apply Setting.placedAll_append_free _ (hqueued.isFree rfl heffect)
    exact fun before e after hsplit => absurd hsplit (by simp [queueDoLoops, registerSeeds, registerStates])

/-- The last labels are notes. -/
theorem exists_lastNotes (walk : Walk) (setting : Setting) :
    ∃ notes, (walk.writeLastLabels setting).events.toList = walk.events.toList ++ notes ∧
      ∀ e ∈ notes, e.isNote = true := by
  refine ⟨(walk.labels.labelsFrom setting.body.codeEnd).map labelEvent, ?_, fun e he => ?_⟩
  · rw [writeLastLabels_eq]
    exact Array.toList_append
  · obtain ⟨label, -, rfl⟩ := List.mem_map.1 he
    rfl

/-- Ending a walk adds what may stand anywhere. -/
theorem Attended.finish_events (h : walk.Attended setting) (hsettled : walk.Settled) :
    ∃ new, (walk.finish setting).events.toList = walk.events.toList ++ new ∧ ∀ e ∈ new, e.isFree = true := by
  obtain ⟨notes, hevents, hnotes⟩ := walk.exists_lastNotes setting
  obtain ⟨new, heffect⟩ := hsettled.takesEffect_flush setting
  refine ⟨notes ++ new, ?_, ?_⟩
  · rw [Walk.finish_events, heffect.events, hevents, List.append_assoc]
  · intro e he
    rcases List.mem_append.1 he with he | he
    · exact Event.isFree_of_isNote (hnotes e he)
    · exact h.isFree (walk.writeLastLabels_blocks setting) heffect e he

end Walk

namespace Setting

variable {setting : Setting}

/-- The invariant holds after every instruction, everything stands where it may, and the jumps back whose conditions can
    be written have been. -/
theorem attended_walkTo (htiles : Tiles 0 0 setting.body.instructions.toList) (seeds : List Nat) (count : Nat) :
    (setting.walkTo seeds count).Attended setting ∧ setting.PlacedAll (setting.walkTo seeds count).events.toList ∧
      ∀ i ∈ setting.body.instructions.toList.take count, ∀ condition, setting.Conditions i condition →
        i.opcode.isHidden = false →
        ∃ line, .statement line ∈ (setting.walkTo seeds count).events.toList ∧ line.position = i.position := by
  induction count with
  | zero =>
      obtain ⟨hattended, hplaced⟩ := Walk.attended_prepare htiles seeds
      exact ⟨hattended, hplaced, fun i hi => absurd hi List.not_mem_nil⟩
  | succ count ih =>
      obtain ⟨hattended, hplaced, hwritten⟩ := ih
      cases hi : setting.body.instructions.toList[count]? with
      | none =>
          have hsize : setting.body.instructions.size ≤ count := List.getElem?_eq_none_iff.1 hi
          rw [walkTo_succ_of_none setting seeds hi, List.take_of_length_le (Nat.le_succ_of_le hsize)]
          rw [List.take_of_length_le hsize] at hwritten
          exact ⟨hattended, hplaced, hwritten⟩
      | some i =>
          have hmem := List.mem_of_getElem? hi
          have hcurrent := setting.upToDate_walkTo htiles seeds count
          rw [Body.cursorAfter_eq_position (Body.isTiled_of_tiles htiles) hi] at hcurrent
          rw [walkTo_succ setting seeds hi]
          refine ⟨hattended.step htiles hmem hcurrent count,
            hattended.placed_step htiles hmem hcurrent count hplaced, ?_⟩
          intro j hj condition hcondition hvisible
          rw [List.take_add_one, hi, List.mem_append, Option.toList_some, List.mem_singleton] at hj
          rcases hj with hj | rfl
          · obtain ⟨line, hline, hposition⟩ := hwritten j hj condition hcondition hvisible
            obtain ⟨notes, said, hevents, -⟩ := Walk.utter_speech setting (setting.walkTo seeds count) i count
            refine ⟨line, hcurrent.mem_step count ?_, hposition⟩
            rw [hevents]
            exact List.mem_append_left _ hline
          · obtain ⟨line, hline, hposition⟩ := Walk.exists_line_of_conditions hcondition hvisible
              (Array.getElem?_toList ▸ hi) (setting.walkTo seeds count)
            exact ⟨line, hcurrent.mem_step count hline, hposition⟩

/-- The words of control flow stand where they may: every event is in its place, and every jump back whose condition can
    be written is written. -/
structure PlacesControl (setting : Setting) (events : List Event) : Prop where
  placed : setting.PlacedAll events
  jumpsBack : ∀ i ∈ setting.body.instructions.toList, i.isDoUntil = true → ∀ condition, setting.Conditions i condition →
    ∃ line, .statement line ∈ events ∧ line.position = i.position

theorem placesControl_walk (htiles : Tiles 0 0 setting.body.instructions.toList)
    (hvisible : ∀ i ∈ setting.body.instructions.toList, i.isDoUntil = true → i.opcode.isHidden = false)
    (seeds : List Nat) : setting.PlacesControl (setting.walk seeds).events.toList := by
  obtain ⟨hattended, hplaced, hwritten⟩ := attended_walkTo htiles seeds setting.body.instructions.size
  obtain ⟨new, hevents, hfree⟩ := hattended.finish_events (setting.settled_walkTo seeds _)
  rw [walk_eq_finish, hevents]
  constructor
  · exact placedAll_append_free hplaced hfree
  · intro i hi huntil condition hcondition
    have htaken : i ∈ setting.body.instructions.toList.take setting.body.instructions.size := by
      rwa [List.take_of_length_le (by simp)]
    obtain ⟨line, hline, hposition⟩ := hwritten i htaken condition hcondition (hvisible i hi huntil)
    exact ⟨line, List.mem_append_left _ hline, hposition⟩

end Setting

/-- Whatever the jumps of a decoded body lead to, the words of control flow stand where they may. -/
theorem decompile_placesControl (source : Source) (dialect : Dialect) (words : Vocabulary) (context : Context) :
    (∀ seeds, ((source.decode dialect).setting words context).PlacesControl
      (((source.decode dialect).setting words context).walk seeds).events.toList) ∧
      ∃ seeds, (source.decode dialect).decompile words context =
        context.layOut (((source.decode dialect).setting words context).walk seeds).events := by
  constructor
  · intro seeds
    apply Setting.placesControl_walk (decode_tiles source dialect)
    intro i hi huntil
    have hconforms := decode_everywhere readInstruction_conforms source i (Array.mem_toList_iff.1 hi)
    have hopcode := Instruction.opcode_of_isDoUntil (Instruction.everywhere_iff.1 hconforms).1.token huntil
    simp [hopcode, Opcode.isHidden]
  · unfold Body.decompile Setting.events
    dsimp only
    split
    · exact ⟨[], rfl⟩
    · exact ⟨_, rfl⟩

end ScriptBytecode
