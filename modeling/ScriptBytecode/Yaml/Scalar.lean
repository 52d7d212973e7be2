/-
Module: ScriptBytecode.Yaml.Scalar
Purpose: The text of scalars in every style. Plain and quoted scalars may run over several lines, which are folded;
  block scalars keep their lines (literal) or fold them (folded) and are delimited by their indentation.
Main exports: Style, startsPlain, plainScalar, quotedScalar, blockScalar
-/
import ScriptBytecode.Yaml.Cursor

namespace ScriptBytecode.Yaml

/-- How a scalar is written. -/
inductive Style where
  | plain
  | singleQuoted
  | doubleQuoted
  | literal
  | folded
deriving Repr, Inhabited, DecidableEq

/-- Digits of a number to some base up to sixteen. An empty text is no number. -/
def digits? (base : Nat) (text : List Char) : Option Nat :=
  if text.isEmpty then none
  else text.foldlM (fun value c => do
    let digit ←
      if c.isDigit then some (c.toNat - '0'.toNat)
      else if 'a' ≤ c ∧ c ≤ 'f' then some (c.toNat - 'a'.toNat + 10)
      else if 'A' ≤ c ∧ c ≤ 'F' then some (c.toNat - 'A'.toNat + 10)
      else none
    if digit < base then some (value * base + digit) else none) 0

/-!
### Plain scalars
-/

/-- Characters that delimit flow collections and their entries. -/
def isFlowIndicator (c : Char) : Bool := c == ',' || c == '[' || c == ']' || c == '\x7b' || c == '\x7d'

/-- Characters that cannot start a plain scalar, whatever follows. -/
def isIndicator (c : Char) : Bool :=
  isFlowIndicator c || c == '#' || c == '&' || c == '*' || c == '!' || c == '|' || c == '>' ||
  c == '\'' || c == '"' || c == '%' || c == '@' || c == '\x60'

/-- A plain scalar can start here. A dash can start one if no blank follows, and so can a question mark and a
    colon outside flow collections. -/
def startsPlain (inFlow : Bool) : List Char → Bool
  | [] => false
  | c :: rest =>
    if c == '-' then !rest.head?.any isBlank
    else if c == '?' || c == ':' then !inFlow && !endsWord rest
    else !isIndicator c && !isBlank c && !isBreak c

/-- Number of characters of a word of a plain scalar. A colon ends it if a blank follows. In flow collections
    their indicators end it too, and a colon may not touch an indicator. -/
def plainWord (inFlow : Bool) : List Char → Option Nat
  | [] => some 0
  | c :: rest =>
    if isBlank c || isBreak c then some 0
    else if inFlow && c == ':' && rest.head?.any fun d => isFlowIndicator d || d == '?' then none
    else if (c == ':' && endsWord rest) || (inFlow && isFlowIndicator c) then some 0
    else (plainWord inFlow rest).map (· + 1)

/-- A plain scalar after a gap: its text, whether a line end comes after its last word, and the cursor at what
    follows. A comment ends it, and so does a line that is indented less than `margin`, except in flow
    collections. -/
def plainFrom (inFlow : Bool) (margin : Int) :
    (fuel : Nat) → Gap → Cursor → Option (List Char × Bool × Cursor)
  | 0, _, _ => none
  | fuel + 1, gap, c =>
    if c.atMarker || c.rest.head? == some '#' then some ([], gap.crossesLine, c)
    else do
      let length ← plainWord inFlow c.rest
      let text := if length = 0 then [] else gap.text ++ c.rest.take length
      let gap := if length = 0 then gap else {}
      let after := c.skip length
      if after.rest.isEmpty || !endsWord after.rest then return (text, gap.crossesLine, after)
      let (gap, next) ← after.gap? margin {}
      if !inFlow && (next.column : Int) < margin then return (text, gap.crossesLine, next)
      let (more, crosses, stop) ← plainFrom inFlow margin fuel gap next
      return (text ++ more, crosses, stop)

/-- A plain scalar. -/
def plainScalar (inFlow : Bool) (margin : Int) (c : Cursor) : Option (List Char × Bool × Cursor) :=
  plainFrom inFlow margin (c.size + 1) {} c

/-!
### Quoted scalars
-/

/-- The character of a numeric escape. -/
def escapedCode (length : Nat) (rest : List Char) : Option Char := do
  let digits := rest.take length
  let code ← if digits.length = length then digits? 16 digits else none
  if 0xD800 ≤ code ∧ code ≤ 0xDFFF ∨ 0x10FFFF < code then none else some (Char.ofNat code)

/-- An escape after its backslash: the character, and how many characters it takes. -/
def escaped : List Char → Option (Char × Nat)
  | '0' :: _ => some (Char.ofNat 0, 1)
  | 'a' :: _ => some (Char.ofNat 0x07, 1)
  | 'b' :: _ => some (Char.ofNat 0x08, 1)
  | 't' :: _ => some ('\t', 1)
  | '\t' :: _ => some ('\t', 1)
  | 'n' :: _ => some ('\n', 1)
  | 'v' :: _ => some (Char.ofNat 0x0B, 1)
  | 'f' :: _ => some (Char.ofNat 0x0C, 1)
  | 'r' :: _ => some ('\r', 1)
  | 'e' :: _ => some (Char.ofNat 0x1B, 1)
  | ' ' :: _ => some (' ', 1)
  | '"' :: _ => some ('"', 1)
  | '/' :: _ => some ('/', 1)
  | '\\' :: _ => some ('\\', 1)
  | 'N' :: _ => some (Char.ofNat 0x85, 1)
  | '_' :: _ => some (Char.ofNat 0xA0, 1)
  | 'L' :: _ => some (Char.ofNat 0x2028, 1)
  | 'P' :: _ => some (Char.ofNat 0x2029, 1)
  | 'x' :: rest => (escapedCode 2 rest).map (·, 3)
  | 'u' :: rest => (escapedCode 4 rest).map (·, 5)
  | 'U' :: rest => (escapedCode 8 rest).map (·, 9)
  | _ => none

/-- A word of a quoted scalar: its text, whether an escaped line end follows it, and the cursor after it.
    Single-quoted scalars write a quote twice; double-quoted ones have escapes. -/
def quotedWord (quote : Char) : (fuel : Nat) → Cursor → Option (List Char × Bool × Cursor)
  | 0, _ => none
  | fuel + 1, c =>
    let onward (x : Char) (length : Nat) : Option (List Char × Bool × Cursor) := do
      let (text, isJoined, stop) ← quotedWord quote fuel (c.skip length)
      return (x :: text, isJoined, stop)
    match c.rest with
    | [] => some ([], false, c)
    | x :: rest =>
      if isBlank x || isBreak x then some ([], false, c)
      else if x == quote then
        if quote == '\'' && rest.head? == some '\'' then onward '\'' 2 else some ([], false, c)
      else if quote == '"' && x == '\\' then
        if rest.head?.any isBreak then some ([], true, (c.skip 1).skipBreak)
        else do
          let (y, length) ← escaped rest
          onward y (length + 1)
      else onward x 1

/-- A quoted scalar after its opening quote. No line of it may look like the start or end of a document. -/
def quotedFrom (quote : Char) : (fuel : Nat) → Cursor → Option (List Char × Cursor)
  | 0, _ => none
  | fuel + 1, c =>
    if c.atMarker || c.rest.isEmpty then none
    else do
      let (text, isJoined, stop) ← quotedWord quote (c.size + 1) c
      if stop.rest.head? == some quote then return (text, stop.skip 1)
      let (gap, next) ← stop.gap? 0 { isJoined }
      let (more, stop) ← quotedFrom quote fuel next
      return (text ++ gap.text ++ more, stop)

/-- A quoted scalar, from its opening quote on. -/
def quotedScalar (quote : Char) (c : Cursor) : Option (List Char × Cursor) :=
  quotedFrom quote (c.size + 1) (c.skip 1)

/-!
### Block scalars
-/

/-- What becomes of the line ends at the end of a block scalar. -/
inductive Chomping where
  /-- The last one is kept. -/
  | clip
  /-- None is kept. -/
  | strip
  /-- All are kept. -/
  | keep
deriving Repr, Inhabited, DecidableEq

/-- The indicator of a chomping. -/
def chomping? : List Char → Option Chomping
  | '+' :: _ => some .keep
  | '-' :: _ => some .strip
  | _ => none

/-- The indicator of an indentation, a digit other than zero; zero if there is none. -/
def indentation? : List Char → Option Nat
  | c :: _ => if c == '0' then none else if c.isDigit then some (c.toNat - '0'.toNat) else some 0
  | [] => some 0

/-- The two indicators of a block scalar, in either order, and the cursor after them. -/
def blockHeader (c : Cursor) : Option (Chomping × Nat × Cursor) := do
  match chomping? c.rest with
  | some chomping =>
    let c := c.skip 1
    let indentation ← indentation? c.rest
    return (chomping, indentation, if indentation = 0 then c else c.skip 1)
  | none =>
    let indentation ← indentation? c.rest
    let c := if indentation = 0 then c else c.skip 1
    if indentation = 0 then return (.clip, 0, c)
    match chomping? c.rest with
    | some chomping => return (chomping, indentation, c.skip 1)
    | none => return (.clip, indentation, c)

/-- Empty lines of a block scalar and the indentation after them: the line ends, the widest indentation, and the
    cursor. Spaces count as indentation up to the column `indent`, or all of them if it is not known yet. -/
def blockBreaks (indent : Option Nat) (c : Cursor) : Option (List Char × Nat × Cursor) :=
  go c.rest c.index c.line c.column 0 []
where
  /-- The walk over empty lines. -/
  go : List Char → (index line column widest : Nat) → List Char → Option (List Char × Nat × Cursor)
    | [], index, line, column, widest, breaks =>
      some (breaks, max widest column, { rest := [], size := c.size, index, line, column })
    | x :: rest, index, line, column, widest, breaks =>
      let isOpen := indent.all (column < ·)
      if isOpen && x == ' ' then go rest (index + 1) line (column + 1) widest breaks
      else if isOpen && x == '\t' then none
      else if isBreak x then
        go rest (index + 1) (line + 1) 0 (max widest column) (breaks ++ [x])
      else
        some (breaks, max widest column, { rest := x :: rest, size := c.size, index, line, column })

/-- Line ends that have been read but not placed yet: the one after the last line, and those of empty lines. -/
structure BlockTail where
  leading : List Char := []
  trailing : List Char := []
  /-- The last line starts with a blank, so that its line end is not folded. -/
  afterBlank : Bool := false
deriving Repr, Inhabited

/-- Lines of a block scalar that start in the column `indent`. -/
def blockLines (isFolded : Bool) (indent : Nat) :
    (fuel : Nat) → BlockTail → Cursor → Option (List Char × BlockTail × Cursor)
  | 0, _, _ => none
  | fuel + 1, tail, c =>
    if c.column != indent || c.rest.isEmpty then some ([], tail, c)
    else do
      let startsBlank := c.rest.head?.any isBlank
      let joint :=
        if isFolded && tail.leading == ['\n'] && !tail.afterBlank && !startsBlank then
          if tail.trailing.isEmpty then [' '] else []
        else tail.leading
      let stop := c.skipWhile fun _ => true
      let line := c.rest.take (stop.index - c.index)
      let leading := stop.rest.take 1
      let (trailing, _, next) ← blockBreaks (some indent) stop.skipBreak
      let (more, tail', stop) ←
        blockLines isFolded indent fuel { leading, trailing, afterBlank := startsBlank } next
      return (joint ++ tail.trailing ++ line ++ more, tail', stop)

/-- A block scalar, from its indicator on. `parent` is the column of the block around it. -/
def blockScalar (isFolded : Bool) (parent : Int) (c : Cursor) : Option (List Char × Cursor) := do
  let (chomping, indentation, c) ← blockHeader (c.skip 1)
  let c := c.skipRemark
  if !endsLine c.rest then none
  let given := if indentation = 0 then none else some (parent.toNat + indentation)
  let (trailing, widest, c) ← blockBreaks given c.skipBreak
  let indent := given.getD (max widest (max (parent + 1).toNat 1))
  let (text, tail, stop) ← blockLines isFolded indent (c.size + 1) { trailing } c
  match chomping with
  | .strip => return (text, stop)
  | .clip => return (text ++ tail.leading, stop)
  | .keep => return (text ++ tail.leading ++ tail.trailing, stop)

end ScriptBytecode.Yaml
