/-
Module: ScriptBytecode.Main
Purpose: The program: reads the files that a command names, carries the command out and prints what it leaves.
Main exports: main
-/
import ScriptBytecode.Command.Run

open ScriptBytecode

/-- Why a file could not be read. -/
def readFailure : IO.Error → String
  | .noFileOrDirectory .. => "No such file or directory (os error 2)"
  | .permissionDenied .. => "Permission denied (os error 13)"
  | error => toString error

/-- Reads a file. -/
def readPath (path : String) : IO (Except String ByteArray) := do
  try
    return .ok (← IO.FS.readBinFile path)
  catch error =>
    return .error (readFailure error)

/-- Runs the program. -/
def main (arguments : List String) : IO UInt32 := do
  let paths := ((Command.parse? arguments).map (·.paths)).getD []
  let held ← paths.mapM fun path => return (path, ← readPath path)
  let outcome := runArguments arguments fun path =>
    (held.lookup path).getD (.error "No such file or directory (os error 2)")
  IO.print outcome.output
  IO.eprint outcome.errors
  return UInt32.ofNat outcome.exitCode
