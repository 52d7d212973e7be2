/-
Module: ScriptBytecode.Yaml.Cursor
Purpose: Moving over YAML text. A cursor knows its line and column, because columns decide how block collections
  nest and lines decide what can be a key. Besides the line feed, the two Unicode separators end a line; all other
  line ends are line feeds already when scanning starts.
Main exports: isBreak, isBlank, endsWord, isDocumentMarker, Cursor, Gap, Cursor.gap?
-/

namespace ScriptBytecode.Yaml

/-- The characters that end a line. -/
def isBreak (c : Char) : Bool := c == '\n' || c.toNat == 0x2028 || c.toNat == 0x2029

/-- A space or a tab. -/
def isBlank (c : Char) : Bool := c == ' ' || c == '\t'

/-- A blank, a line end or the end of the text comes next. -/
def endsWord : List Char → Bool
  | [] => true
  | c :: _ => isBlank c || isBreak c

/-- A line end or the end of the text comes next. -/
def endsLine : List Char → Bool
  | [] => true
  | c :: _ => isBreak c

/-- What starts or ends a document, if it stands at the start of a line. -/
def isDocumentMarker : List Char → Bool
  | '-' :: '-' :: '-' :: rest => endsWord rest
  | '.' :: '.' :: '.' :: rest => endsWord rest
  | _ => false

/-- What is left of a text, and where its first character stands. -/
structure Cursor where
  rest : List Char
  /-- Number of characters of the whole text, which bounds every walk over it. -/
  size : Nat
  /-- Number of characters before this one. -/
  index : Nat := 0
  line : Nat := 0
  column : Nat := 0
deriving Repr, Inhabited

namespace Cursor

/-- Moves over `n` characters, none of which ends a line. -/
def skip (c : Cursor) (n : Nat) : Cursor :=
  { c with rest := c.rest.drop n, index := c.index + n, column := c.column + n }

/-- Moves over a line end, if there is one. -/
def skipBreak (c : Cursor) : Cursor :=
  match c.rest with
  | x :: rest => if isBreak x then { c with rest, index := c.index + 1, line := c.line + 1, column := 0 } else c
  | [] => c

/-- Moves over characters of the line as long as they satisfy a condition. -/
def skipWhile (c : Cursor) (condition : Char → Bool) : Cursor :=
  c.skip (c.rest.takeWhile fun x => condition x && !isBreak x).length

/-- Moves over blanks and a comment, which reaches to the end of the line. -/
def skipRemark (c : Cursor) : Cursor :=
  let c := c.skipWhile isBlank
  if c.rest.head? == some '#' then c.skipWhile fun _ => true else c

/-- The cursor stands at a line that starts or ends a document. -/
def atMarker (c : Cursor) : Bool := c.column == 0 && isDocumentMarker c.rest

end Cursor

/-!
### Gaps

Between two words of a scalar there are blanks, or line ends with blanks around them. Blanks around line ends do not
count. A line feed that comes first is folded: it becomes a space, or nothing if further line ends follow.
-/

/-- What stands between two words of a scalar. -/
structure Gap where
  /-- Blanks, if the words are on one line. -/
  blanks : List Char := []
  /-- Line ends. -/
  breaks : List Char := []
  /-- An escaped line end came first. -/
  isJoined : Bool := false
deriving Repr, Inhabited

namespace Gap

/-- The words are on different lines. -/
def crossesLine (gap : Gap) : Bool := gap.isJoined || !gap.breaks.isEmpty

/-- What a gap contributes to the text. -/
def text (gap : Gap) : List Char :=
  if gap.isJoined then gap.breaks
  else
    match gap.breaks with
    | [] => gap.blanks
    | '\n' :: [] => [' ']
    | '\n' :: more => more
    | breaks => breaks

end Gap

/-- Reads on over a gap. A tab may not indent a line before the column `margin`. -/
def Cursor.gap? (margin : Int) (gap : Gap) (c : Cursor) : Option (Gap × Cursor) :=
  go c.rest c.index c.line c.column gap
where
  /-- The walk over blanks and line ends. -/
  go : List Char → (index line column : Nat) → Gap → Option (Gap × Cursor)
    | [], index, line, column, gap => some (gap, { rest := [], size := c.size, index, line, column })
    | x :: rest, index, line, column, gap =>
      if isBreak x then
        go rest (index + 1) (line + 1) 0 { gap with blanks := [], breaks := gap.breaks ++ [x] }
      else if isBlank x then
        if gap.crossesLine then
          if x == '\t' && (column : Int) < margin then none
          else go rest (index + 1) line (column + 1) gap
        else
          go rest (index + 1) line (column + 1) { gap with blanks := gap.blanks ++ [x] }
      else
        some (gap, { rest := x :: rest, size := c.size, index, line, column })

end ScriptBytecode.Yaml
