/-
Module: ScriptBytecode.Command.Run
Purpose: Carrying out a command. The files it names are looked up in `Files`, so that a run is a function of the
  arguments and of what the files hold. Files are read in a fixed order, and the first one that cannot be read or
  does not hold what it should ends the run.
Main exports: Files, Outcome, Command.paths, Command.run, runArguments
-/
import ScriptBytecode.Command
import ScriptBytecode.Decompile
import ScriptBytecode.Document.Options
import ScriptBytecode.Document.Rules
import ScriptBytecode.Document.Symbols
import ScriptBytecode.Listing

namespace ScriptBytecode

/-- What is known of files: the bytes of a file, or why it cannot be read. -/
abbrev Files := String → Except String ByteArray

/-- What a run leaves: an exit code and the text on both streams. -/
structure Outcome where
  exitCode : Nat
  output : String := ""
  errors : String := ""
deriving Repr, Inhabited, DecidableEq

/-- A file that ended a run. -/
structure FileError where
  path : String
  message : String
deriving Repr, Inhabited, DecidableEq

/-- Carries out a part of a command. -/
abbrev Run := Except FileError

namespace Files

/-- Bytes of a file. -/
def bytes (files : Files) (path : String) : Run ByteArray :=
  match files path with
  | .ok bytes => .ok bytes
  | .error message => .error ⟨path, message⟩

/-- Text of a file. -/
def text (files : Files) (path : String) : Run String := do
  match String.fromUTF8? (← files.bytes path) with
  | some text => return text
  | none => throw ⟨path, "stream did not contain valid UTF-8"⟩

/-- What a file holds as a document. Without a path it is a default. -/
def document {α : Type} (files : Files) (path? : Option String)
    (read : String → Except DocumentError α) (default : α) : Run α :=
  match path? with
  | none => return default
  | some path => do
    match read (← files.text path) with
    | .ok value => return value
    | .error error => throw ⟨path, error.message⟩

end Files

/-- Last part of a path, without the extension. A dot at the start of the last part starts no extension. -/
def stem (path : String) : String :=
  match (path.splitOn "/").filter (fun part => part != "" && part != ".") |>.getLast? with
  | none | some ".." => ""
  | some name =>
    match (name.splitOn ".").dropLast with
    | [] | [""] => name
    | parts => ".".intercalate parts

/-- The table of a format. -/
def FormatChoice.table (choice : FormatChoice) (files : Files) : Run OpcodeTable := do
  let overrides ← files.document choice.rules Document.rulesOfText []
  return OpcodeTable.ofRules ⟨choice.version, choice.licensee⟩ overrides

/-- Everything that is known about a body: its package and its bytes. -/
def BodyChoice.load (choice : BodyChoice) (files : Files) : Run (Package × Source) := do
  let table ← choice.format.table files
  let extra ← files.document choice.natives Document.nativesOfText {}
  let symbols ← files.document choice.symbols Document.symbolsOfText {}
  let bytes ← files.bytes choice.input
  let package : Package :=
    { table, natives := (NativeTable.core.merge extra).lookup, symbols := symbols.symbols }
  let source : Source :=
    { declaration := stem choice.input
      bytes := bytes.toList
      declaredSize := choice.size.getD bytes.size }
  return (package, source)

/-- What a table says about each code, a line each. -/
def OpcodeTable.overview (table : OpcodeTable) : String :=
  let header := s!"# Format: {table.format.text} ({table.format.era})\n"
  let lines := (List.range firstExtendedNative).map fun code =>
    s!"{Text.codeByte code}  {(table.lookup (UInt8.ofNat code)).text}\n"
  header ++ String.join lines

namespace Command

/-- Text that a command prints. -/
def text (command : Command) (files : Files) : Run String :=
  match command with
  | .disassemble choice => do
    let (package, source) ← choice.load files
    return (source.decode package.dialect).listing
  | .decompile choice optionsPath owner => do
    let options ← files.document optionsPath Document.optionsOfText {}
    let (package, source) ← choice.load files
    let body := source.decode package.dialect
    return (body.decompile (package.vocabulary body owner) (Context.new options)).1
  | .showRules choice => return (← choice.table files).overview

/-- Paths of a format's files. -/
def formatPaths (choice : FormatChoice) : List String := choice.rules.toList

/-- Paths of a body's files. -/
def bodyPaths (choice : BodyChoice) : List String :=
  formatPaths choice.format ++ choice.natives.toList ++ choice.symbols.toList ++ [choice.input]

/-- Paths of all files that a command reads. -/
def paths : Command → List String
  | .disassemble choice => bodyPaths choice
  | .decompile choice options _ => options.toList ++ bodyPaths choice
  | .showRules choice => formatPaths choice

/-- Carries out a command. -/
def run (command : Command) (files : Files) : Outcome :=
  match command.text files with
  | .ok output => { exitCode := 0, output }
  | .error error => { exitCode := 1, errors := s!"Error: {error.path}: {error.message}\n" }

/-- How the program is used. -/
def usage : String :=
  "Usage: <disasm|decompile|rules> [INPUT] --engine-version <VERSION> [OPTIONS]\n"

end Command

/-- Carries out the command that the arguments ask for. -/
def runArguments (arguments : List String) (files : Files) : Outcome :=
  match Command.parse? arguments with
  | some command => command.run files
  | none => { exitCode := 2, errors := Command.usage }

end ScriptBytecode
