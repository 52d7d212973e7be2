/-
Module: ScriptBytecode.Event
Purpose: Recovered source as a sequence of events, before it is laid out: blocks that open and close, labels,
  statements and diagnostics. No event depends on a layout option; `Page` lays events out as text.
Main exports: Line, Event, Page, Page.print, Context.layOut
-/
import ScriptBytecode.Block
import ScriptBytecode.Context
import ScriptBytecode.Expression

namespace ScriptBytecode

/-- What one instruction adds to the source. The text may be empty, and then only the comment before it is
    written. -/
structure Line where
  /-- Position of the instruction. -/
  position : Nat
  text : String
  /-- A semicolon follows the text. -/
  terminated : Bool := false
  /-- Comment for the line before. -/
  preComment : Option String := none
  /-- Comment after the text. -/
  postComment : Option String := none
deriving Repr, Inhabited, DecidableEq

/-- One event of recovered source. -/
inductive Event where
  /-- A block opens. Its header is not written for the arms of a `switch`. -/
  | opened (block : OpenBlock) (header : String)
  /-- The innermost `if` closes and its `else` opens. -/
  | alternative (block : OpenBlock)
  /-- A block closes. -/
  | closed (kind : BlockKind) (id : Nat) (footer : Option String)
  /-- A `break;` of a `switch` or loop. -/
  | broke (text : String)
  | label (name : String) (position : Nat)
  | statement (line : Line)
  /-- An instruction that could not be written, and the comment it had left so far. -/
  | diagnostic (position : Nat) (error : RenderError) (postComment : Option String)
deriving Repr, Inhabited, DecidableEq

/-- Text that has been laid out, and the state it leaves. -/
structure Page where
  context : Context
  text : String := ""
deriving Repr, Inhabited

namespace Page

/-- Writes a line at the current indentation. -/
def line (page : Page) (text : String) : Page :=
  let context := page.context.applyPending
  { context, text := page.text ++ context.pad ++ text ++ "\n" }

/-- Writes a label, one level further out. -/
def label (page : Page) (name : String) : Page :=
  let context := page.context.applyPending
  { context, text := page.text ++ context.outdentedPad ++ name ++ ":\n" }

/-- Changes the indentation of the lines that follow. -/
def shift (page : Page) (delta : Int) : Page :=
  { page with context := page.context.shift delta }

/-- Writes a comment line, unless comments are left out. -/
def comment (page : Page) (text : Option String) : Page :=
  match text with
  | some text => if page.context.options.suppressComments then page else page.line s!"// {text}"
  | none => page

/-- Writes what an instruction adds to the source. -/
def statement (page : Page) (line : Line) : Page :=
  let page := page.comment line.preComment
  let page :=
    if line.text.isEmpty then page
    else
      let terminator := if line.terminated then ";" else ""
      let remark := match line.postComment with
        | some text => if page.context.options.suppressComments then "" else s!" // {text}"
        | none => ""
      page.line s!"{line.text}{terminator}{remark}"
  { page with context :=
      { page.context with
        needsTerminator := line.terminated
        preComment := none
        postComment := none } }

/-- Writes the diagnostic of an instruction. -/
def diagnostic (page : Page) (position : Nat) (error : RenderError) (postComment : Option String) :
    Page :=
  let page := page.line (error.diagnostic position)
  { page with context :=
      { page.context with
        needsTerminator := false
        preComment := none
        postComment } }

/-- Writes the header of a block and its opening brace. -/
def openBrace (page : Page) (header : String) : Page :=
  match page.context.options.braceStyle with
  | .sameLine => page.line (header ++ " \x7b")
  | .nextLine => (page.line header).line "\x7b"

/-- Writes the closing brace of a block and its footer. -/
def closeBrace (page : Page) (footer : Option String) : Page :=
  match footer, page.context.options.braceStyle with
  | none, _ => page.line "\x7d"
  | some footer, .sameLine => page.line ("\x7d " ++ footer)
  | some footer, .nextLine => (page.line "\x7d").line footer

/-- Writes what stands between an `if` block and its `else` block. -/
def elseBraces (page : Page) : Page :=
  match page.context.options.braceStyle with
  | .sameLine => page.line "\x7d else \x7b"
  | .nextLine => ((page.line "\x7d").line "else").line "\x7b"

/-- Writes one event. Arms of a `switch` have no braces, only indentation. -/
def print (page : Page) : Event → Page
  | .opened block header =>
    if block.kind.isLabelLike then page.shift 1 else (page.openBrace header).shift 1
  | .alternative _ => ((page.shift (-1)).elseBraces).shift 1
  | .closed kind _ footer =>
    if kind.isLabelLike then page.shift (-1) else (page.shift (-1)).closeBrace footer
  | .broke text => page.line text
  | .label name _ => page.label name
  | .statement line => page.statement line
  | .diagnostic position error postComment => page.diagnostic position error postComment

end Page

/-- Lays out a sequence of events: the text, and the state it leaves. -/
def Context.layOut (context : Context) (events : Array Event) : String × Context :=
  let page := events.foldl Page.print { context }
  (page.text, page.context.applyPending)

end ScriptBytecode
