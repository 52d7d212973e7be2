/-
Module: ScriptBytecode.Session
Purpose: Work on one body step by step: it is decoded when somebody asks for it, once, and read instruction by
  instruction; the layout state goes on from one piece of text to the next.
Main exports: Session, Session.start, Session.ensureDecoded, Session.decompile, Session.renderAt
-/
import ScriptBytecode.Decompile

namespace ScriptBytecode

/-- A body that may not have been decoded yet, the class that owns it, and a layout state. -/
structure Session where
  source : Source
  tape : Tape
  isDecoded : Bool := false
  context : Context
  owner : Option String := none

namespace Session

/-- A session on a body of which nothing has been decoded yet. -/
def start (source : Source) (options : Options) (owner : Option String) : Session where
  source := source
  tape := { body := source.undecoded }
  context := Context.new options
  owner := owner

/-- The body, as far as it has been decoded. -/
def body (session : Session) : Body := session.tape.body

/-- Decodes the body, unless that has been done. -/
def ensureDecoded (session : Session) (dialect : Dialect) : Session :=
  if session.isDecoded then session
  else { session with tape := { body := session.source.decode dialect }, isDecoded := true }

/-- Source text of the body, laid out from the current state on. -/
def decompile (session : Session) (package : Package) : String × Session :=
  let words := package.vocabulary session.body session.owner
  let (text, context) := session.body.decompile words session.context
  (text, { session with context })

/-- The top-level instruction at a position as an expression, in the current state. -/
def renderAt (session : Session) (package : Package) (position : Nat) :
    Except RenderError String × Session :=
  let words := package.vocabulary session.body session.owner
  let (result, context) := session.body.renderAt words session.context position
  (result, { session with context })

end Session

end ScriptBytecode
