/-
Module: ScriptBytecode.Command
Purpose: What the command line asks for. The first argument names a command; then come options, each at most once
  and in any order, and for the commands that work on a body the path of its bytes.
Main exports: FormatChoice, BodyChoice, Command, Command.parse?
-/

namespace ScriptBytecode

/-- The format to work with, and a document of rules that changes it. -/
structure FormatChoice where
  version : Nat
  licensee : Nat := 0
  rules : Option String := none
deriving Repr, Inhabited, DecidableEq

/-- The body to work on, and the documents that help to read it. -/
structure BodyChoice where
  input : String
  format : FormatChoice
  /-- Logical size of the body; without it the number of bytes. -/
  size : Option Nat := none
  symbols : Option String := none
  natives : Option String := none
deriving Repr, Inhabited, DecidableEq

/-- A command with what it needs. -/
inductive Command where
  /-- List the instructions of a body. -/
  | disassemble (body : BodyChoice)
  /-- Recover the source of a body. -/
  | decompile (body : BodyChoice) (options owner : Option String)
  /-- Show what the codes mean in a format. -/
  | showRules (format : FormatChoice)
deriving Repr, Inhabited, DecidableEq

/-- Arguments by role: options with their values, and everything else. -/
structure Arguments where
  options : List (String × String) := []
  positional : List String := []
deriving Repr, Inhabited, DecidableEq

namespace Arguments

/-- An argument that can only be an option. A dash alone is a value. -/
def looksLikeOption (argument : String) : Bool :=
  argument.startsWith "-" && argument != "-"

/-- Adds an option in front; an option that is there already is an error. -/
def withOption (arguments : Arguments) (name value : String) : Option Arguments :=
  if arguments.options.any (·.1 == name) then none
  else some { arguments with options := (name, value) :: arguments.options }

/-- Sorts arguments by role; `known` are the names of the options. A value follows its option as the next
    argument, or in the same argument after an equals sign; in the former case it cannot look like an option.
    After a double dash everything is positional. -/
def parse? (known : List String) : List String → Option Arguments
  | [] => some {}
  | "--" :: rest => some { positional := rest }
  | argument :: rest =>
    if looksLikeOption argument then
      match argument.splitOn "=" with
      | [] => none
      | name :: value =>
        if !known.contains name then none
        else if !value.isEmpty then do
          (← parse? known rest).withOption name ("=".intercalate value)
        else
          match rest with
          | [] => none
          | value :: rest =>
            if looksLikeOption value then none else do (← parse? known rest).withOption name value
    else do
      let arguments ← parse? known rest
      return { arguments with positional := argument :: arguments.positional }

/-- Value of an option. -/
def option? (arguments : Arguments) (name : String) : Option String := arguments.options.lookup name

end Arguments

/-- Decimal digits as a number. -/
def decimal? (digits : List Char) : Option Nat :=
  if digits.isEmpty || !digits.all Char.isDigit then none
  else some (digits.foldl (fun n c => n * 10 + (c.toNat - '0'.toNat)) 0)

/-- A number between zero and a maximum, with an optional sign. -/
def numberUpTo? (maximum : Nat) (text : String) : Option Nat :=
  match text.toList with
  | '+' :: digits => (decimal? digits).filter (· ≤ maximum)
  | '-' :: digits => (decimal? digits).filter (· == 0)
  | digits => (decimal? digits).filter (· ≤ maximum)

/-- Paths cannot be empty. -/
def path? (text : String) : Option String := if text.isEmpty then none else some text

/-- Reads the value of an option that may be missing. -/
def Arguments.read? {α : Type} (arguments : Arguments) (name : String) (read : String → Option α) :
    Option (Option α) :=
  match arguments.option? name with
  | none => some none
  | some value => (read value).map some

namespace Command

/-- Options of every command. -/
def formatOptions : List String := ["--engine-version", "--licensee", "--rules"]

/-- Options of the commands that work on a body. -/
def bodyOptions : List String := formatOptions ++ ["--script-size", "--symbols", "--natives"]

/-- Options of recovering source. -/
def decompileOptions : List String := bodyOptions ++ ["--options", "--class"]

/-- Largest number of a version or a licensee. -/
def maxVersion : Nat := 0xFFFF

/-- Largest size of a body. -/
def maxSize : Nat := 0xFFFFFFFF

/-- The format that arguments choose. -/
def format? (arguments : Arguments) : Option FormatChoice := do
  return {
    version := ← ← arguments.read? "--engine-version" (numberUpTo? maxVersion)
    licensee := (← arguments.read? "--licensee" (numberUpTo? maxVersion)).getD 0
    rules := ← arguments.read? "--rules" path? }

/-- The body that arguments choose. -/
def body? (arguments : Arguments) : Option BodyChoice := do
  let [input] := arguments.positional | none
  return {
    input := ← path? input
    format := ← format? arguments
    size := ← arguments.read? "--script-size" (numberUpTo? maxSize)
    symbols := ← arguments.read? "--symbols" path?
    natives := ← arguments.read? "--natives" path? }

/-- The command that the arguments of the program ask for, if they are well-formed. -/
def parse? : List String → Option Command
  | "disasm" :: rest => do
    let arguments ← Arguments.parse? bodyOptions rest
    return .disassemble (← body? arguments)
  | "decompile" :: rest => do
    let arguments ← Arguments.parse? decompileOptions rest
    return .decompile (← body? arguments) (← arguments.read? "--options" path?)
      (arguments.option? "--class")
  | "rules" :: rest => do
    let arguments ← Arguments.parse? formatOptions rest
    if arguments.positional.isEmpty then return .showRules (← format? arguments) else none
  | _ => none

end Command

end ScriptBytecode
