/-
Module: ScriptBytecode.Proofs.Walk.InPlace
Purpose: The walk in place. Here nothing is recorded: every event is on the page before the next instruction is looked
  at. A statement is written in the scope that the desk has at the moment, its comments and its semicolon are noted on
  the page until it is written, and what a failed statement has noted stays there. A walk that missed labels is thrown
  away, and another one starts from the layout state that was kept. Main statement: this writes the text of
  `Body.decompile` and leaves its layout state.
Main exports: Instruction.statementInPlace, Notes, Context.withNotes, Page.introduce, Page.conclude, Desk.work,
  Desk.write, Desk.step, Desk.pass, Body.decompileInPlace, lastNotes, foldl_print_context, Walk.Appends, Desk.Shows,
  Body.decompileInPlace_eq
-/
import ScriptBytecode.Proofs.Expression.InPlace
import ScriptBytecode.Proofs.Walk.Rerun

namespace ScriptBytecode

/-- A top-level instruction as a statement, its operands written in place. -/
def Instruction.statementInPlace (words : Vocabulary) (insideSwitch : Bool) (i : Instruction) : InPlace Statement := do
  match i.token with
  | .jumpIfNot target condition => return .branch target.toNat (← condition.inPlace words)
  | .jump target => return .jump target.toNat
  | .filterEditorOnly target => return .editorOnly target.toNat
  | .switch _ _ value => return .switch (← value.inPlace words)
  | .caseLabel target value =>
    if insideSwitch then
      match value with
      | none => return .defaultArm
      | some value => return .caseArm target.toNat (← value.inPlace words)
    else
      throw .missingSwitch
  | .iterator expr stop => return .forEach s!"foreach {← expr.inPlace words}" stop.toNat
  | .dynArrayIterator array item withIndex index stop =>
    let array ← array.inPlace words
    let item ← item.inPlace words
    if withIndex then
      return .forEach s!"foreach {array}({item}, {← index.inPlace words})" stop.toNat
    else
      return .forEach s!"foreach {array}({item})" stop.toNat
  | .labelTable _ => return .silent
  | .defaultParmValue _ statements =>
    let parts ← statements.mapM (·.inPlace words)
    let shown := "; ".intercalate (parts.filter (!·.isEmpty))
    return .remark s!"DefaultParmValue={shown}"
  | .unknown => return .plain (← i.inPlace words) false
  | .noOperands =>
    if i.opcode = .iteratorPop then return .iteratorPop
    else
      let text ← i.inPlace words
      return .plain text (!text.isEmpty)
  | _ =>
    let text ← i.inPlace words
    return .plain text (!text.isEmpty)

/-- What a layout state has noted for a statement: whether a semicolon follows it, and its comments. -/
structure Notes where
  needsTerminator : Bool := false
  preComment : Option String := none
  postComment : Option String := none

namespace Context

def notes (context : Context) : Notes := ⟨context.needsTerminator, context.preComment, context.postComment⟩

def withNotes (context : Context) (notes : Notes) : Context :=
  { context with
    needsTerminator := notes.needsTerminator
    preComment := notes.preComment
    postComment := notes.postComment }

end Context

namespace Page

def noted (page : Page) (notes : Notes) : Page := { page with context := page.context.withNotes notes }

/-- Writes the comment that is noted for the line before, and uses it up. -/
def introduce (page : Page) : Page := { page with context.preComment := none }.comment page.context.preComment

/-- Writes the text of a statement with the semicolon and the comment that are noted for it. The comment is used up,
    also where there is no text. -/
def conclude (page : Page) (text : String) : Page :=
  let after := page.context.postComment
  let page := { page with context.postComment := none }
  if text.isEmpty then page
  else
    let terminator := if page.context.needsTerminator then ";" else ""
    let remark := match after with
      | some text => if page.context.options.suppressComments then "" else s!" // {text}"
      | none => ""
    page.line s!"{text}{terminator}{remark}"

end Page

/-- The walk with nothing recorded. -/
def Walk.unrecorded (walk : Walk) : Walk := { walk with events := #[] }

theorem Walk.labels_unrecorded (walk : Walk) : walk.unrecorded.labels = walk.labels := rfl

namespace Desk

/-- Does a part of the walk, and puts what it gives rise to on the page at once. -/
def work (operation : Walk → Walk) (desk : Desk) : Desk :=
  let after := operation desk.walk
  { desk with walk := after.unrecorded, page := after.events.foldl Page.print desk.page }

/-- Writes an instruction, or the diagnostic of why it cannot be written. -/
def write (body : Body) (words : Vocabulary) (i : Instruction) (desk : Desk) : Desk :=
  let desk := { desk with page := desk.page.noted {} }
  match (i.statementInPlace words (desk.walk.blocks.isInside .switch)).run desk with
  | .ok statement after =>
    let (wording, walk) := after.walk.perform body after.index i statement
    let page := after.page.noted ⟨wording.terminated, wording.comment, after.remark⟩
    { after with walk, page := page.introduce.conclude wording.text }
  | .error error after => { after with page := after.page.line (error.diagnostic i.position) }

/-- One step: the label of the instruction, the instruction itself, and the markers that are due after it. -/
def step (body : Body) (words : Vocabulary) (desk : Desk) (i : Instruction) (index : Nat) : Desk :=
  let desk := { desk with index }.work (·.writeLabel i.position)
  let desk :=
    if i.opcode.isHidden then desk
    else
      let desk :=
        if desk.page.context.options.suppressImplicitReturn && body.isImplicitReturn index then desk
        else desk.write body words i
      { desk with walk.previous := some i.opcode }
  desk.work (·.reconcile i.endPosition)

/-- A whole walk that starts in a layout state, with labels at the given positions from the start. -/
def pass (body : Body) (words : Vocabulary) (seeds : List Nat) (context : Context) : Desk :=
  let setting := body.setting words context
  let start : Desk :=
    { walk := ((Walk.registerStates setting {}).registerSeeds seeds).queueDoLoops setting
      page := { context }
      index := 0 }
  let desk := body.instructions.toList.zipIdx.foldl (fun desk (i, index) => desk.step body words i index)
    (start.work (·.reconcile 0))
  let desk := desk.work (·.finish (body.setting words desk.page.context))
  { desk with page.context := desk.page.context.applyPending }

end Desk

/-- Source text of a body, written in place, and the layout state that is left. When the walk missed labels, the layout
    state is set back and a second walk starts with them. -/
def Body.decompileInPlace (body : Body) (words : Vocabulary) (context : Context) : String × Context :=
  let first := Desk.pass body words [] context
  let last :=
    if first.walk.labels.missed.isEmpty then first
    else Desk.pass body words first.walk.labels.missed.toList context
  (last.page.text, last.page.context)

/-!
### Statements in place
-/

namespace InPlace

theorem mapM_of {α β : Type} (render : α → Scope → Render β) (items : List α) :
    (items.mapM fun item => of (render item)) = of fun scope => items.mapM fun item => render item scope := by
  induction items with
  | nil => rfl
  | cons item rest ih => simp only [List.mapM_cons, ih, pure_eq_of, of_bind_of]

end InPlace

open InPlace in
/-- A statement written in place is the statement in the scope of the desk, and its remark. -/
theorem Instruction.statementInPlace_eq (words : Vocabulary) (insideSwitch : Bool) (i : Instruction) :
    i.statementInPlace words insideSwitch = InPlace.of fun scope => i.statement words scope insideSwitch := by
  obtain ⟨code, opcode, position, size, storagePosition, storageSize, token⟩ := i
  cases token
  case caseLabel target value =>
    cases insideSwitch <;> cases value <;>
      simp only [statementInPlace, statement, Instruction.inPlace_eq, pure_eq_of, of_bind_of] <;> rfl
  all_goals
    simp only [statementInPlace, statement, Instruction.inPlace_eq, mapM_of, pure_eq_of, of_bind_of, ite_of]

namespace Page

theorem introduce_noted (page : Page) (notes : Notes) :
    (page.noted notes).introduce = (page.comment notes.preComment).noted { notes with preComment := none } := by
  change (page.noted { notes with preComment := none }).comment notes.preComment = _
  cases notes.preComment with
  | none => rfl
  | some before =>
      simp only [comment]
      cases hsuppress : page.context.options.suppressComments <;>
        simp only [noted, Context.withNotes, hsuppress] <;> rfl

/-- A statement with its notes is written as the event of the statement is. -/
theorem conclude_introduce (page : Page) (line : Line) :
    (page.noted ⟨line.terminated, line.preComment, line.postComment⟩).introduce.conclude line.text =
      page.statement line := by
  rw [introduce_noted]
  unfold conclude statement
  generalize page.comment line.preComment = page
  cases line.text.isEmpty <;> cases line.postComment <;> rfl

end Page

/-!
### What printing leaves alone
-/

/-- What an event leaves noted. A statement uses up its comments; one that failed leaves its remark. -/
def Event.notes : Event → Option Notes
  | .statement line => some { needsTerminator := line.terminated }
  | .diagnostic _ _ postComment => some { postComment }
  | _ => none

/-- What the last statement of a sequence of events leaves noted. -/
def lastNotes (events : List Event) : Option Notes := events.reverse.findSome? Event.notes

theorem lastNotes_cons (e : Event) (rest : List Event) (notes : Notes) :
    (lastNotes (e :: rest)).getD notes = (lastNotes rest).getD (e.notes.getD notes) := by
  rw [lastNotes, lastNotes, List.reverse_cons, List.findSome?_append]
  cases rest.reverse.findSome? Event.notes <;> cases hnotes : e.notes <;> simp [hnotes]

/-- One state is the other but for the indentation. -/
def Context.Moves (before after : Context) : Prop :=
  ∃ indent pendingIndent, after = { before with indent, pendingIndent }

namespace Context.Moves

theorem refl (context : Context) : context.Moves context := ⟨_, _, rfl⟩

theorem trans {first second third : Context} (h : first.Moves second) (h' : second.Moves third) :
    first.Moves third := by
  obtain ⟨_, _, rfl⟩ := h
  obtain ⟨_, _, rfl⟩ := h'
  exact ⟨_, _, rfl⟩

end Context.Moves

namespace Page

theorem moves_comment (page : Page) (text : Option String) : page.context.Moves (page.comment text).context := by
  unfold comment
  split
  · split
    · exact .refl _
    · exact ⟨_, _, rfl⟩
  · exact .refl _

/-- An event changes the notes if it is a statement, and nothing else but the indentation. -/
theorem print_context (page : Page) (e : Event) :
    (page.context.withNotes (e.notes.getD page.context.notes)).Moves (page.print e).context := by
  cases e with
  | opened block header =>
      simp only [print, openBrace]
      split
      · exact ⟨_, _, rfl⟩
      · split <;> exact ⟨_, _, rfl⟩
  | alternative block =>
      simp only [print, elseBraces]
      split <;> exact ⟨_, _, rfl⟩
  | closed kind id footer =>
      simp only [print, closeBrace]
      split
      · exact ⟨_, _, rfl⟩
      · split <;> exact ⟨_, _, rfl⟩
  | statement line =>
      obtain ⟨indent, pendingIndent, hcomment⟩ := page.moves_comment line.preComment
      simp only [print, statement]
      split
      · rw [hcomment]
        exact ⟨_, _, rfl⟩
      · simp only [Page.line, hcomment]
        exact ⟨_, _, rfl⟩
  | _ => exact ⟨_, _, rfl⟩

end Page

/-- Events change the notes to those of the last statement among them, and nothing else but the indentation. -/
theorem foldl_print_context (events : List Event) (page : Page) :
    (page.context.withNotes ((lastNotes events).getD page.context.notes)).Moves
      (events.foldl Page.print page).context := by
  induction events generalizing page with
  | nil => exact .refl _
  | cons e rest ih =>
      obtain ⟨indent, pendingIndent, hfirst⟩ := page.print_context e
      have hrest := ih (page.print e)
      rw [hfirst] at hrest
      rw [lastNotes_cons]
      exact .trans ⟨indent, pendingIndent, rfl⟩ hrest

/-!
### Parts of a walk

What has been recorded has no say in what comes next.
-/

namespace Walk

/-- The operation does not read what has been recorded, and adds to it. -/
def Appends (f : Walk → Walk) : Prop :=
  ∀ walk, f walk = { f walk.unrecorded with events := walk.events ++ (f walk.unrecorded).events }

theorem Appends.comp {f g : Walk → Walk} (hf : Appends f) (hg : Appends g) : Appends fun walk => f (g walk) := by
  intro walk
  have hmiddle : (g walk).unrecorded = (g walk.unrecorded).unrecorded := by
    rw [hg walk]
    rfl
  have hevents : (g walk).events = walk.events ++ (g walk.unrecorded).events := by
    rw [hg walk]
  dsimp only
  rw [hf (g walk), hf (g walk.unrecorded), hmiddle, hevents, Array.append_assoc]

/-- Markers that take effect look at the blocks alone. -/
theorem Framed.appends {f : Walk → Walk} (h : Framed f) : Appends f := by
  intro walk
  obtain ⟨next, new, -, hframe⟩ := h walk.blocks
  rw [hframe walk rfl, hframe walk.unrecorded rfl]
  simp [unrecorded]

theorem appends_writeLabel (position : Nat) : Appends (·.writeLabel position) := by
  intro walk
  dsimp only
  cases hpending : walk.labels.pending[position]? with
  | none =>
      have hunrecorded : walk.unrecorded.labels.pending[position]? = none := hpending
      rw [writeLabel_of_none hpending, writeLabel_of_none hunrecorded]
      simp [unrecorded]
  | some label =>
      have hunrecorded : walk.unrecorded.labels.pending[position]? = some label := hpending
      rw [writeLabel_of_some hpending, writeLabel_of_some hunrecorded]
      simp [unrecorded, emit]

theorem appends_writeLastLabels (setting : Setting) : Appends (·.writeLastLabels setting) := by
  intro walk
  dsimp only
  rw [writeLastLabels_eq, writeLastLabels_eq]
  simp [unrecorded, record]

theorem appends_finish (setting : Setting) : Appends (·.finish setting) :=
  (framed_blocks (·.drain.2)).appends.comp (framed_closing.appends.comp (appends_writeLastLabels setting))

/-- What a statement comes to does not hang on what has been recorded. -/
theorem perform_unrecorded (walk : Walk) (body : Body) (index : Nat) (i : Instruction) (statement : Statement) :
    walk.unrecorded.perform body index i statement =
      ((walk.perform body index i statement).1, (walk.perform body index i statement).2.unrecorded) := by
  rcases walk.perform_plan body index i statement with ⟨huniform, -⟩ | ⟨lead, target, -, -, hgoto⟩
  · have hperform : walk.perform body index i statement = _ := huniform walk.labels walk.events
    have hunrecorded : walk.unrecorded.perform body index i statement = _ := huniform walk.labels #[]
    rw [hunrecorded, hperform]
    rfl
  · have hperform : walk.perform body index i statement = _ := hgoto walk.labels walk.events
    have hunrecorded : walk.unrecorded.perform body index i statement = _ := hgoto walk.labels #[]
    rw [hunrecorded, hperform]
    rfl

end Walk

/-!
### The desk during a walk
-/

/-- What is noted while a statement is written comes from this statement alone, so the page shows the event of the
    statement, or of its diagnostic. -/
theorem Desk.write_eq (desk : Desk) (body : Body) (words : Vocabulary) (i : Instruction) :
    desk.write body words i =
      match (i.statement words desk.scope (desk.walk.blocks.isInside .switch)).run none with
      | .ok statement remark =>
        let performed := desk.walk.perform body desk.index i statement
        { desk with walk := performed.2, page := desk.page.print (.statement (performed.1.line i remark)) }
      | .error error remark => { desk with page := desk.page.print (.diagnostic i.position error remark) } := by
  -- The remark of an earlier statement that failed is gone before this one starts.
  let ready : Desk := { desk with page := desk.page.noted {} }
  rw [write, i.statementInPlace_eq]
  cases hrun : (i.statement words desk.scope (desk.walk.blocks.isInside .switch)).run none with
  | error error remark =>
      have hready : (InPlace.of fun scope => i.statement words scope (desk.walk.blocks.isInside .switch)).run ready =
          .error error (ready.withRemark remark) := InPlace.of_error hrun
      rw [hready]
      rfl
  | ok statement remark =>
      have hready : (InPlace.of fun scope => i.statement words scope (desk.walk.blocks.isInside .switch)).run ready =
          .ok statement (ready.withRemark remark) := InPlace.of_ok hrun
      rw [hready]
      exact congrArg (fun page => { desk with walk := (desk.walk.perform body desk.index i statement).2, page })
        (desk.page.conclude_introduce ((desk.walk.perform body desk.index i statement).1.line i remark))

/-- The desk has come as far as the walk: it has the labels and blocks of the walk, and the events of the walk are on
    the page. -/
structure Desk.Shows (context : Context) (walk : Walk) (desk : Desk) : Prop where
  state : desk.walk = walk.unrecorded
  page : desk.page = walk.events.foldl Page.print { context }

namespace Desk.Shows

variable {context : Context} {desk : Desk} {walk : Walk}

theorem options (h : desk.Shows context walk) : desk.page.context.options = context.options := by
  obtain ⟨_, _, hcontext⟩ := foldl_print_context walk.events.toList { context }
  rw [h.page, ← Array.foldl_toList, hcontext]
  rfl

theorem scope (h : desk.Shows context walk) : desk.page.context.scope = context.scope := by
  obtain ⟨_, _, hcontext⟩ := foldl_print_context walk.events.toList { context }
  rw [h.page, ← Array.foldl_toList, hcontext]
  rfl

/-- What a walk depends on is at the desk what it was at the start. -/
theorem setting (h : desk.Shows context walk) (body : Body) (words : Vocabulary) :
    body.setting words desk.page.context = body.setting words context := by
  rw [Body.setting, Body.setting, h.scope, h.options]

theorem work (h : desk.Shows context walk) {f : Walk → Walk} (hf : Walk.Appends f) :
    (desk.work f).Shows context (f walk) := by
  constructor
  · rw [hf walk, Desk.work, h.state]
    rfl
  · rw [hf walk, Desk.work, h.state, h.page, Array.foldl_append]

/-- An instruction is written at the desk as the walk writes it. -/
theorem write (h : desk.Shows context walk) (body : Body) (words : Vocabulary) (i : Instruction) :
    (desk.write body words i).Shows context (walk.write (body.setting words context) desk.index i) := by
  have hinside : desk.walk.blocks.isInside .switch = walk.blocks.isInside .switch := by
    rw [h.state]
    rfl
  rw [Desk.write_eq, Walk.write, hinside, h.state, Desk.scope, h.scope]
  dsimp only [Body.setting]
  cases (i.statement words context.scope (walk.blocks.isInside .switch)).run none with
  | ok statement remark =>
      dsimp only
      rw [walk.perform_unrecorded]
      constructor
      · rfl
      · rw [h.page, Walk.emit, Array.foldl_push, walk.perform_events]
        rfl
  | error error remark =>
      dsimp only
      constructor
      · rfl
      · rw [h.page, Walk.emit, Array.foldl_push]

theorem follows (h : desk.Shows context walk) (opcode : Opcode) :
    { desk with walk.previous := some opcode }.Shows context { walk with previous := some opcode } where
  state := by
    rw [h.state]
    rfl
  page := h.page

/-- One step at the desk is one step of the walk. -/
theorem step (h : desk.Shows context walk) (body : Body) (words : Vocabulary) (i : Instruction) (index : Nat) :
    (desk.step body words i index).Shows context (walk.step (body.setting words context) i index) := by
  have hstart : { desk with index }.Shows context walk := ⟨h.state, h.page⟩
  have hlabel := hstart.work (Walk.appends_writeLabel i.position)
  refine work ?_ (Walk.framed_reconcile i.endPosition).appends
  split
  · exact hlabel
  · apply follows
    rw [hlabel.options]
    by_cases himplicit : (context.options.suppressImplicitReturn && body.isImplicitReturn index) = true
    · have hwalk : ((body.setting words context).suppressImplicitReturn &&
          (body.setting words context).body.isImplicitReturn index) = true := himplicit
      rw [if_pos hwalk, if_pos himplicit]
      exact hlabel
    · have hwalk : ¬((body.setting words context).suppressImplicitReturn &&
          (body.setting words context).body.isImplicitReturn index) = true := himplicit
      rw [if_neg hwalk, if_neg himplicit]
      exact hlabel.write body words i

theorem foldl_step (h : desk.Shows context walk) (body : Body) (words : Vocabulary)
    (steps : List (Instruction × Nat)) :
    (steps.foldl (fun desk (i, index) => desk.step body words i index) desk).Shows context
      (steps.foldl (fun walk (i, index) => walk.step (body.setting words context) i index) walk) := by
  induction steps generalizing desk walk with
  | nil => exact h
  | cons next rest ih => exact ih (h.step body words next.1 next.2)

end Desk.Shows

/-- A whole walk in place is the walk, laid out. -/
theorem Desk.pass_eq (body : Body) (words : Vocabulary) (seeds : List Nat) (context : Context) :
    (pass body words seeds context).walk = ((body.setting words context).walk seeds).unrecorded ∧
      ((pass body words seeds context).page.text, (pass body words seeds context).page.context) =
        context.layOut ((body.setting words context).walk seeds).events := by
  let setting := body.setting words context
  let start : Walk := ((Walk.registerStates setting {}).registerSeeds seeds).queueDoLoops setting
  have hstart : Desk.Shows context start ⟨start, { context }, 0⟩ := ⟨rfl, rfl⟩
  have hprepare := hstart.work (Walk.framed_reconcile 0).appends
  have hsteps := hprepare.foldl_step body words body.instructions.toList.zipIdx
  have hfinish := hsteps.work (Walk.appends_finish (body.setting words context))
  -- The end of the walk looks at the desk again, which still has the options and the scope of the start.
  dsimp only [pass]
  rw [hsteps.setting body words]
  exact ⟨hfinish.state, congrArg (fun page : Page => (page.text, page.context.applyPending)) hfinish.page⟩

/-- Written in place, the source of a body is the same, and so is the layout state that is left. -/
theorem Body.decompileInPlace_eq (body : Body) (words : Vocabulary) (context : Context) :
    body.decompileInPlace words context = body.decompile words context := by
  have hfirst : (Desk.pass body words [] context).walk.labels.missed =
      ((body.setting words context).walk []).labels.missed := by
    rw [(Desk.pass_eq body words [] context).1, Walk.labels_unrecorded]
  unfold decompileInPlace decompile Setting.events
  dsimp only
  rw [hfirst]
  split
  · exact (Desk.pass_eq body words [] context).2
  · exact (Desk.pass_eq body words _ context).2

end ScriptBytecode
