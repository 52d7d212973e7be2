/-
Module: ScriptBytecode.Text.Quoted
Purpose: Text between double quotes, in the two forms in which it is written: as a source literal, where only
  quotes, backslashes and line feeds are escaped, and in listings, where everything that does not show is.
Main exports: literal, listingText
-/
import ScriptBytecode.Text.Unprintable

namespace ScriptBytecode.Text

/-- A character inside a source literal. -/
def literalChar : Char → List Char
  | '"' => ['\\', '"']
  | '\\' => ['\\', '\\']
  | '\n' => ['\\', 'n']
  | c => [c]

/-- A source literal. -/
def literal (s : String) : String :=
  String.ofList ('"' :: s.toList.flatMap literalChar ++ ['"'])

/-- A character inside listed text. -/
def listingChar (c : Char) : List Char :=
  match c with
  | '"' => ['\\', '"']
  | '\\' => ['\\', '\\']
  | '\n' => ['\\', 'n']
  | '\r' => ['\\', 'r']
  | '\t' => ['\\', 't']
  | '\x00' => ['\\', '0']
  | c => if isUnprintable c then ['\\', 'u', '\x7b'] ++ Nat.toDigits 16 c.toNat ++ ['\x7d'] else [c]

/-- Text as a listing shows it. -/
def listingText (s : String) : String :=
  String.ofList ('"' :: s.toList.flatMap listingChar ++ ['"'])

end ScriptBytecode.Text
