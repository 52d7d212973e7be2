/-
Module: ScriptBytecode.Proofs.Walk.Indentation
Purpose: Events on the page. An event writes its lines at the starting indentation plus one unit for every block that
  is open around it, so the text of a walk can be read off its events without the indentation that the page keeps.
  Main statement: the recovered source of any body is well bracketed and indented by its brackets.
Main exports: Row, Event.texts, Event.rows, rowsAfter, Page.level, Page.print_spec,
  Setting.WellBracketed, decompile_wellBracketed
-/
import ScriptBytecode.Decompile
import ScriptBytecode.Proofs.Walk.Brackets

namespace ScriptBytecode

/-- A line of the page before it is indented, with the number of blocks that are open around it. -/
structure Row where
  depth : Nat
  /-- How far the line stands out of the block: one level for labels. -/
  outdent : Nat
  text : String
deriving Repr, DecidableEq

/-- The line on a page whose outermost lines are indented by `start` units. -/
def Row.render (options : Options) (start : Nat) (row : Row) : String :=
  String.join (List.replicate (start + row.depth - row.outdent) options.indent) ++ row.text ++ "\n"

namespace Options

/-- The header of a block and its opening brace. -/
def openBraces (options : Options) (header : String) : List String :=
  match options.braceStyle with
  | .sameLine => [header ++ " \x7b"]
  | .nextLine => [header, "\x7b"]

/-- What stands between an `if` block and its `else` block. -/
def elseBraces (options : Options) : List String :=
  match options.braceStyle with
  | .sameLine => ["\x7d else \x7b"]
  | .nextLine => ["\x7d", "else", "\x7b"]

/-- The closing brace of a block and its footer. -/
def closeBraces (options : Options) : Option String → List String
  | none => ["\x7d"]
  | some footer =>
    match options.braceStyle with
    | .sameLine => ["\x7d " ++ footer]
    | .nextLine => ["\x7d", footer]

/-- A comment, unless comments are left out. -/
def remark (options : Options) (text : Option String) : Option String :=
  if options.suppressComments then none else text.map ("// " ++ ·)

end Options

/-- Text of a line with its semicolon and the comment after it. -/
def Line.written (options : Options) (line : Line) : String :=
  line.text ++ (if line.terminated then ";" else "") ++
    ((options.remark line.postComment).map (" " ++ ·)).getD ""

namespace Event

/-- The lines that an event writes, before they are indented. Arms of a `switch` have no braces. -/
def texts (options : Options) : Event → List String
  | .opened block header => if block.kind.isLabelLike then [] else options.openBraces header
  | .alternative _ => options.elseBraces
  | .closed kind _ footer => if kind.isLabelLike then [] else options.closeBraces footer
  | .broke text => [text]
  | .label name _ => [name ++ ":"]
  | .statement line =>
    (options.remark line.preComment).toList ++
      (if line.text.isEmpty then [] else [line.written options])
  | .diagnostic position error _ => [error.diagnostic position]

/-- How far an event moves out before it writes: the braces that end a block stand where its header does. -/
def outward : Event → Nat
  | .alternative _ | .closed _ _ _ => 1
  | _ => 0

/-- How far an event moves in after it has written. -/
def inward : Event → Nat
  | .opened _ _ | .alternative _ => 1
  | _ => 0

/-- Labels stand one level further out than what surrounds them. -/
def outdent : Event → Nat
  | .label _ _ => 1
  | _ => 0

/-- The lines that an event writes when the blocks of `chain` are open before it. -/
def rows (options : Options) (chain : List OpenBlock) (e : Event) : List Row :=
  (e.texts options).map fun text => ⟨chain.length - e.outward, e.outdent, text⟩

/-- An event moves in and out as it opens and closes blocks. -/
theorem length_of_follow {chain next : List OpenBlock} {e : Event} (h : e.follow chain = some next) :
    e.outward ≤ chain.length ∧ next.length = chain.length - e.outward + e.inward := by
  cases e with
  | opened block header => cases h; simp [outward, inward]
  | alternative block =>
      cases chain with
      | nil => cases h
      | cons top outer =>
          simp only [follow, Option.ite_none_right_eq_some, Option.some.injEq] at h
          simp [← h.2, outward, inward]
  | closed kind id footer =>
      cases chain with
      | nil => cases h
      | cons top outer =>
          simp only [follow, Option.ite_none_right_eq_some, Option.some.injEq] at h
          simp [← h.2, outward, inward]
  | _ => cases h; simp [outward, inward]

end Event

/-- The lines that a sequence of events writes when the blocks of `chain` are open before it. -/
def rowsAfter (options : Options) (chain : List OpenBlock) : List Event → List Row
  | [] => []
  | e :: rest => e.rows options chain ++ rowsAfter options ((e.follow chain).getD chain) rest

namespace Page

/-- Indentation of the next line, before it is kept from going below zero. -/
def level (page : Page) : Int := page.context.indent + page.context.pendingIndent

/-- `next` is `page` with some lines more, at one level. -/
structure Wrote (page next : Page) (level outdent : Nat) (texts : List String) : Prop where
  text : next.text = page.text ++
    String.join (texts.map fun text => page.context.padding (level - outdent) ++ text ++ "\n")
  level : next.level = level
  options : next.context.options = page.context.options

theorem level_shift (page : Page) (delta : Int) : (page.shift delta).level = page.level + delta := by
  simp [level, shift, Context.shift, Int.add_assoc]

@[simp] theorem shift_zero (page : Page) : page.shift 0 = page := by
  simp [shift, Context.shift]

theorem Wrote.nil {page : Page} {level : Nat} (h : page.level = level) (outdent : Nat) :
    page.Wrote page level outdent [] :=
  ⟨by simp, h, rfl⟩

/-- The indentation that is in force once a pending change has taken effect. -/
theorem Wrote.indent_applyPending {page next : Page} {level outdent : Nat} {texts : List String}
    (h : page.Wrote next level outdent texts) : next.context.applyPending.indent = level := by
  have hlevel : (next.context.indent : Int) + next.context.pendingIndent = level := h.level
  simp [Context.applyPending, hlevel]

/-- One line more, at the same level. -/
theorem Wrote.line {page next : Page} {level : Nat} {texts : List String}
    (h : page.Wrote next level 0 texts) (text : String) :
    page.Wrote (next.line text) level 0 (texts ++ [text]) := by
  have hpad : next.context.applyPending.pad = page.context.padding level := by
    unfold Context.pad
    rw [h.indent_applyPending]
    show String.join (List.replicate level next.context.options.indent) = _
    rw [h.options]
    rfl
  refine ⟨?_, ?_, h.options⟩
  · show next.text ++ next.context.applyPending.pad ++ text ++ "\n" = _
    rw [hpad, h.text]
    simp [String.append_assoc]
  · show (next.context.applyPending.indent : Int) + 0 = level
    rw [h.indent_applyPending, Int.add_zero]

theorem wrote_label {page : Page} {level : Nat} (h : page.level = level) (name : String) :
    page.Wrote (page.label name) level 1 [name ++ ":"] := by
  have hindent := (Wrote.nil h 1).indent_applyPending
  refine ⟨?_, ?_, rfl⟩
  · show page.text ++ page.context.padding (page.context.applyPending.indent - 1) ++ name ++ ":\n" = _
    rw [hindent]
    simp [String.append_assoc]
  · show (page.context.applyPending.indent : Int) + 0 = level
    rw [hindent, Int.add_zero]

theorem wrote_openBrace {page : Page} {level : Nat} (h : page.level = level) (header : String) :
    page.Wrote (page.openBrace header) level 0 (page.context.options.openBraces header) := by
  unfold openBrace Options.openBraces
  cases page.context.options.braceStyle with
  | sameLine => exact (Wrote.nil h 0).line _
  | nextLine => exact ((Wrote.nil h 0).line _).line _

theorem wrote_elseBraces {page : Page} {level : Nat} (h : page.level = level) :
    page.Wrote page.elseBraces level 0 page.context.options.elseBraces := by
  unfold elseBraces Options.elseBraces
  cases page.context.options.braceStyle with
  | sameLine => exact (Wrote.nil h 0).line _
  | nextLine => exact (((Wrote.nil h 0).line _).line _).line _

theorem wrote_closeBrace {page : Page} {level : Nat} (h : page.level = level)
    (footer : Option String) :
    page.Wrote (page.closeBrace footer) level 0 (page.context.options.closeBraces footer) := by
  unfold closeBrace Options.closeBraces
  cases footer with
  | none => exact (Wrote.nil h 0).line _
  | some footer =>
      cases page.context.options.braceStyle with
      | sameLine => exact (Wrote.nil h 0).line _
      | nextLine => exact ((Wrote.nil h 0).line _).line _

theorem wrote_comment {page : Page} {level : Nat} (h : page.level = level) (text : Option String) :
    page.Wrote (page.comment text) level 0 (page.context.options.remark text).toList := by
  unfold comment Options.remark
  cases text with
  | none => simpa using Wrote.nil h 0
  | some text =>
      cases page.context.options.suppressComments with
      | true => exact Wrote.nil h 0
      | false => exact (Wrote.nil h 0).line ("// " ++ text)

theorem wrote_statement {page : Page} {level : Nat} (h : page.level = level) (line : Line) :
    page.Wrote (page.statement line) level 0
      ((Event.statement line).texts page.context.options) := by
  have hcomment := wrote_comment h line.preComment
  unfold statement Event.texts
  dsimp only
  split
  · rw [List.append_nil]
    exact ⟨hcomment.text, hcomment.level, hcomment.options⟩
  · have hline := hcomment.line (line.written page.context.options)
    generalize page.comment line.preComment = before at hcomment hline ⊢
    -- The comment after the text hangs on the options, which the comment before it leaves alone.
    rw [hcomment.options]
    unfold Line.written Options.remark at hline ⊢
    cases hpost : line.postComment <;> cases hsuppress : page.context.options.suppressComments <;>
      simp only [hpost, hsuppress] at hline ⊢ <;>
      exact ⟨hline.text, hline.level, hline.options⟩

/-- Every event moves out, writes its lines at one level, and moves in. -/
theorem print_eq {page : Page} {level : Nat} {e : Event} (h : page.level - e.outward = level) :
    ∃ written, page.print e = written.shift e.inward ∧
      (page.shift (-e.outward)).Wrote written level e.outdent (e.texts page.context.options) := by
  have hmoved : (page.shift (-e.outward)).level = level := by
    rw [level_shift, ← h]
    omega
  have hstay : page.shift (-((0 : Nat) : Int)) = page := shift_zero page
  cases e with
  | opened block header =>
      simp only [print, Event.texts, Event.inward, Event.outward, Event.outdent, hstay] at hmoved ⊢
      split
      · exact ⟨page, rfl, Wrote.nil hmoved 0⟩
      · exact ⟨_, rfl, wrote_openBrace hmoved header⟩
  | alternative block => exact ⟨_, rfl, wrote_elseBraces hmoved⟩
  | closed kind id footer =>
      simp only [print, Event.texts, Event.inward, Event.outward, Event.outdent] at hmoved ⊢
      split
      · exact ⟨_, (shift_zero _).symm, Wrote.nil hmoved 0⟩
      · exact ⟨_, (shift_zero _).symm, wrote_closeBrace hmoved footer⟩
  | broke text =>
      simp only [Event.outward, hstay] at hmoved ⊢
      exact ⟨_, (shift_zero _).symm, (Wrote.nil hmoved 0).line text⟩
  | label name position =>
      simp only [Event.outward, hstay] at hmoved ⊢
      exact ⟨_, (shift_zero _).symm, wrote_label hmoved name⟩
  | statement line =>
      simp only [Event.outward, hstay] at hmoved ⊢
      exact ⟨_, (shift_zero _).symm, wrote_statement hmoved line⟩
  | diagnostic position error postComment =>
      simp only [Event.outward, hstay] at hmoved ⊢
      have hline := (Wrote.nil hmoved 0).line (error.diagnostic position)
      exact ⟨_, (shift_zero _).symm, hline.text, hline.level, hline.options⟩

/-- What an event does to the page: it writes its lines at the level of the blocks around them, never moves out below
    zero, and leaves the page at the level of the blocks that are open after it. -/
theorem print_spec {page : Page} {start : Nat} {chain next : List OpenBlock} {e : Event}
    (hlevel : page.level = start + chain.length) (hfollow : e.follow chain = some next) :
    (page.print e).text = page.text ++ String.join ((e.rows page.context.options chain).map
        (Row.render page.context.options start)) ∧
      (page.print e).level = start + next.length ∧
      (page.print e).context.options = page.context.options := by
  obtain ⟨houtward, hnext⟩ := Event.length_of_follow hfollow
  have hmoved : page.level - e.outward = (start + (chain.length - e.outward) : Nat) := by
    rw [hlevel]
    omega
  obtain ⟨written, hprint, hwrote⟩ := print_eq hmoved
  rw [hprint]
  refine ⟨?_, ?_, hwrote.options⟩
  · show written.text = _
    rw [hwrote.text, Event.rows, List.map_map]
    rfl
  · rw [level_shift, hwrote.level, hnext]
    omega

end Page

/-- A sequence of events whose brackets match is laid out by its brackets. -/
theorem foldl_print_spec {events : List Event} {page : Page} {start : Nat}
    {chain last : List OpenBlock} (hlevel : page.level = start + chain.length)
    (hfollows : events.foldlM Event.follow chain = some last) :
    (events.foldl Page.print page).text = page.text ++
        String.join ((rowsAfter page.context.options chain events).map
          (Row.render page.context.options start)) ∧
      (events.foldl Page.print page).level = start + last.length ∧
      (events.foldl Page.print page).context.options = page.context.options := by
  induction events generalizing page chain with
  | nil =>
      cases hfollows
      exact ⟨by simp [rowsAfter], hlevel, rfl⟩
  | cons e rest ih =>
      rw [List.foldlM_cons] at hfollows
      obtain ⟨next, hfollow, hrest⟩ := Option.bind_eq_some_iff.1 hfollows
      obtain ⟨htext, hnext, hoptions⟩ := Page.print_spec hlevel hfollow
      obtain ⟨hrestText, hrestLevel, hrestOptions⟩ := ih hnext hrest
      rw [List.foldl_cons]
      refine ⟨?_, hrestLevel, hrestOptions.trans hoptions⟩
      rw [hrestText, htext, hoptions]
      simp [rowsAfter, hfollow, String.append_assoc]

/-!
### Whole walks
-/

/-- A walk is well bracketed, and what it leaves on a page is indented by its brackets. -/
structure Setting.WellBracketed (setting : Setting) (seeds : List Nat) (context : Context) : Prop where
  /-- After every instruction the events lead to the chain of open blocks. -/
  follows : ∀ count, openAfter (setting.walkTo seeds count).events.toList =
    some (setting.walkTo seeds count).blocks.chain
  /-- No block is opened twice. -/
  opened_once : (openedNumbers (setting.walk seeds).events.toList).Nodup
  /-- Every block that was opened is closed, the last one first. -/
  balanced : openAfter (setting.walk seeds).events.toList = some []
  /-- No block is left open. -/
  chain_empty : (setting.walk seeds).blocks.chain = []
  /-- Every event writes its lines at the starting indentation plus one unit for each block around them, and the page
      never moves out below zero. -/
  indented : ∀ before e after, (setting.walk seeds).events.toList = before ++ e :: after →
    ∃ chain, openAfter before = some chain ∧
      0 ≤ (before.foldl Page.print { context }).level - e.outward ∧
      ((before ++ [e]).foldl Page.print { context }).text =
        (before.foldl Page.print { context }).text ++
          String.join ((e.rows context.options chain).map (Row.render context.options context.indent))
  /-- The text is made of these lines alone. -/
  text : (context.layOut (setting.walk seeds).events).1 =
    String.join ((rowsAfter context.options [] (setting.walk seeds).events.toList).map
      (Row.render context.options context.indent))
  /-- At the end the page is back where it started. -/
  indent : (context.layOut (setting.walk seeds).events).2.indent = context.indent

/-- The brackets of a first part of matching events match as far as it goes. -/
theorem openAfter_of_append {before after : List Event} {last : List OpenBlock}
    (h : openAfter (before ++ after) = some last) :
    ∃ chain, openAfter before = some chain ∧ after.foldlM Event.follow chain = some last := by
  rw [openAfter, List.foldlM_append] at h
  exact Option.bind_eq_some_iff.1 h

theorem Setting.wellBracketed (setting : Setting) (seeds : List Nat) {context : Context}
    (hpending : context.pendingIndent = 0) : setting.WellBracketed seeds context := by
  obtain ⟨hbracketed, hchain⟩ := setting.bracketed_walk seeds
  have hbalanced : openAfter (setting.walk seeds).events.toList = some [] := hchain ▸ hbracketed.follows
  have hstart : (Page.mk context "").level = context.indent + ([] : List OpenBlock).length := by
    simp [Page.level, hpending]
  have hlayOut := foldl_print_spec hstart hbalanced
  refine ⟨fun count => (setting.settled_walkTo seeds count).follows, hbracketed.numbered.used_nodup,
    hbalanced, hchain, ?_, ?_, ?_⟩
  · intro before e after hevents
    obtain ⟨chain, hbefore, hrest⟩ := openAfter_of_append (hevents ▸ hbalanced)
    rw [List.foldlM_cons] at hrest
    obtain ⟨next, hfollow, -⟩ := Option.bind_eq_some_iff.1 hrest
    obtain ⟨-, hlevel, hoptions⟩ := foldl_print_spec hstart hbefore
    have houtward := (Event.length_of_follow hfollow).1
    refine ⟨chain, hbefore, by rw [hlevel]; omega, ?_⟩
    rw [List.foldl_append]
    exact hoptions ▸ (Page.print_spec hlevel hfollow).1
  · rw [Context.layOut, ← Array.foldl_toList]
    simpa using hlayOut.1
  · rw [Context.layOut, ← Array.foldl_toList]
    have hlevel := hlayOut.2.1
    unfold Page.level at hlevel
    dsimp only [Context.applyPending]
    rw [hlevel]
    simp

/-- Whatever the jumps of a body lead to, its recovered source is well bracketed and indented by its brackets. -/
theorem decompile_wellBracketed (body : Body) (words : Vocabulary) (context : Context)
    (hpending : context.pendingIndent = 0) :
    (∀ seeds, (body.setting words context).WellBracketed seeds context) ∧
      ∃ seeds, body.decompile words context =
        context.layOut ((body.setting words context).walk seeds).events := by
  refine ⟨fun seeds => (body.setting words context).wellBracketed seeds hpending, ?_⟩
  unfold Body.decompile Setting.events
  dsimp only
  split
  · exact ⟨[], rfl⟩
  · exact ⟨_, rfl⟩

/-- A conditional jump on `true`. -/
def branchAt (position : Nat) (target : UInt16) : Instruction where
  code := ⟨0x07, none⟩
  opcode := .jumpIfNot
  position := position
  size := 4
  storagePosition := position
  storageSize := 4
  token := .jumpIfNot target
    { code := ⟨0x27, none⟩, opcode := .boolTrue, position := position + 3, size := 1,
      storagePosition := position + 3, storageSize := 1, token := .noOperands }

/-- Jumps whose blocks overlap: the second `if` reaches past the end of the first, and the `do` loop that the third
    ends begins inside the first. -/
def overlapping : Body where
  declaration := "overlapping"
  declaredSize := 12
  format := ⟨0, 0⟩
  instructions := #[branchAt 0 8, branchAt 4 100, branchAt 8 4]
  failure := none

/-- A vocabulary that knows nothing. -/
def noWords : Vocabulary := ⟨.empty, .empty, ⟨0, 0⟩, none⟩

theorem decompile_wellBracketed_overlapping :
    (Context.new {}).pendingIndent = 0 ∧
      (∀ seeds, (overlapping.setting noWords (Context.new {})).WellBracketed seeds (Context.new {})) ∧
      ∃ seeds, overlapping.decompile noWords (Context.new {}) =
        (Context.new {}).layOut ((overlapping.setting noWords (Context.new {})).walk seeds).events :=
  ⟨rfl, decompile_wellBracketed overlapping noWords (Context.new {}) rfl⟩

-- The first `if` has number 1: the loop was queued before it.
example : openedNumbers ((overlapping.setting noWords (Context.new {})).walk [4]).events.toList =
    [2, 0, 1] := by
  cbv

end ScriptBytecode
