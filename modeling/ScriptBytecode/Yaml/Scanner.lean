/-
Module: ScriptBytecode.Yaml.Scanner
Purpose: YAML text as a sequence of tokens. Two things are not said by the characters at hand. Block collections start
  and end where the indentation changes. And what turns out to be a key is only known when its colon comes: a token
  that may be one is remembered as a candidate, and confirmed candidates get their key token in front at the end.
Main exports: Candidate, Scanner, tokens?
-/
import Std.Data.TreeMap
import ScriptBytecode.Yaml.Token

namespace ScriptBytecode.Yaml

/-- A token that may turn out to be a key. -/
structure Candidate where
  /-- Number of the token. -/
  number : Nat
  /-- The token stands where a mapping has its keys, so it has to be one. -/
  required : Bool
  index : Nat
  line : Nat
  column : Nat
deriving Repr, Inhabited, DecidableEq

/-- Longest distance of a key from its colon. -/
def maxKeyLength : Nat := 1024

/-- A candidate that cannot be a key any more: keys are on one line with their colon, and not too far from it. -/
def Candidate.isStale (candidate : Candidate) (c : Cursor) : Bool :=
  candidate.line < c.line || candidate.index + maxKeyLength < c.index

/-- State of a scan. -/
structure Scanner where
  cursor : Cursor
  tokens : Array Token := #[]
  /-- Numbers of the tokens that are keys; a key that starts a block mapping is marked. -/
  keys : Std.TreeMap Nat Bool := {}
  /-- Column of the current block collection, and of those around it. -/
  indent : Int := -1
  indents : List Int := []
  /-- A key may start at the next token. -/
  keyAllowed : Bool := true
  /-- The candidate of the current level; every flow collection has one of its own. -/
  candidate : Option Candidate := none
  /-- Candidates of the levels around it. There are as many as flow collections are open. -/
  outer : List (Option Candidate) := []

namespace Scanner

/-- The scan is inside a flow collection. -/
def inFlow (s : Scanner) : Bool := !s.outer.isEmpty

/-- Adds a token and moves on. -/
def push (s : Scanner) (token : Token) (cursor : Cursor) : Scanner :=
  { s with tokens := s.tokens.push token, cursor }

/-!
### Candidates
-/

/-- Gives up the candidate of the current level; one that is required cannot be given up. -/
def dropCandidate (s : Scanner) : Option Scanner :=
  if s.candidate.any (·.required) then none else some { s with candidate := none }

/-- Makes the next token a candidate, if a key may start there. -/
def saveCandidate (s : Scanner) : Option Scanner :=
  if s.keyAllowed then do
    let s ← s.dropCandidate
    return { s with candidate := some {
      number := s.tokens.size
      required := !s.inFlow && s.indent == s.cursor.column
      index := s.cursor.index
      line := s.cursor.line
      column := s.cursor.column } }
  else some s

/-- Gives up the candidates that cannot be keys any more. -/
def dropStale (s : Scanner) : Option Scanner :=
  let isStale := fun (candidate : Option Candidate) => candidate.any (·.isStale s.cursor)
  let keep := fun (candidate : Option Candidate) => if isStale candidate then none else candidate
  if (s.candidate :: s.outer).any fun candidate => isStale candidate && candidate.any (·.required) then
    none
  else
    some { s with candidate := keep s.candidate, outer := s.outer.map keep }

/-!
### Indentation
-/

/-- Ends the block collections that are indented further than a column. -/
def unroll (s : Scanner) (column : Int) : Scanner :=
  if s.inFlow then s else
    let (tokens, indent, indents) := go s.tokens s.indent s.indents
    { s with tokens, indent, indents }
where
  /-- The walk outwards. -/
  go (tokens : Array Token) (indent : Int) : List Int → Array Token × Int × List Int
    | [] => (tokens, indent, [])
    | around :: indents =>
      if column < indent then go (tokens.push .blockEnd) around indents
      else (tokens, indent, around :: indents)

/-- A block collection at a column is new if the current one is not indented as far. -/
def isDeeper (s : Scanner) (column : Nat) : Bool := !s.inFlow && s.indent < column

/-- Makes a column that of the current block collection. -/
def roll (s : Scanner) (column : Nat) : Scanner :=
  { s with indent := column, indents := s.indent :: s.indents }

/-- Starts a block collection at the cursor, if it is a new one. -/
def rollHere (s : Scanner) (start : Token) : Scanner :=
  if s.isDeeper s.cursor.column then (s.push start s.cursor).roll s.cursor.column else s

/-!
### Between tokens
-/

/-- Moves to the next token, over blanks, line ends and comments. In block style a key may start on every new
    line, and where one may start there are no tabs. -/
def toToken (s : Scanner) : Scanner :=
  go (s.cursor.size + 1) s
where
  /-- The walk from line to line. -/
  go : (fuel : Nat) → Scanner → Scanner
    | 0, s => s
    | fuel + 1, s =>
      let tabs := s.inFlow || !s.keyAllowed
      let c := s.cursor.skipWhile fun x => x == ' ' || (tabs && x == '\t')
      let c := if c.rest.head? == some '#' then c.skipWhile fun _ => true else c
      if c.rest.head?.any isBreak then
        go fuel { s with cursor := c.skipBreak, keyAllowed := s.keyAllowed || !s.inFlow }
      else
        { s with cursor := c }

/-!
### Tokens
-/

/-- A directive or a mark of a document: every block collection ends. -/
def fetchMark (s : Scanner) (token : Token) (stop : Cursor) : Option Scanner := do
  let s ← (s.unroll (-1)).dropCandidate
  return { s.push token stop with keyAllowed := false }

/-- The start of a flow collection. -/
def fetchFlowStart (s : Scanner) (token : Token) : Option Scanner := do
  let s ← s.saveCandidate
  return { s.push token (s.cursor.skip 1) with
    candidate := none, outer := s.candidate :: s.outer, keyAllowed := true }

/-- The end of a flow collection. -/
def fetchFlowEnd (s : Scanner) (token : Token) : Option Scanner := do
  let s ← s.dropCandidate
  let s := { s.push token (s.cursor.skip 1) with keyAllowed := false }
  match s.outer with
  | [] => return s
  | candidate :: outer => return { s with candidate, outer }

/-- A comma. -/
def fetchFlowEntry (s : Scanner) : Option Scanner := do
  let s ← s.dropCandidate
  return { s.push .flowEntry (s.cursor.skip 1) with keyAllowed := true }

/-- A dash. In block style it has to stand where a key could start. -/
def fetchBlockEntry (s : Scanner) : Option Scanner := do
  if !s.inFlow && !s.keyAllowed then none
  let s ← (s.rollHere .blockSequenceStart).dropCandidate
  return { s.push .blockEntry (s.cursor.skip 1) with keyAllowed := true }

/-- A question mark, which announces a key of any kind. -/
def fetchKey (s : Scanner) : Option Scanner := do
  if !s.inFlow && !s.keyAllowed then none
  let s ← (s.rollHere .blockMappingStart).dropCandidate
  return { s.push .key (s.cursor.skip 1) with keyAllowed := !s.inFlow }

/-- A colon. It confirms the candidate; without one it has to stand where a key could start. -/
def fetchValue (s : Scanner) : Option Scanner :=
  match s.candidate with
  | some candidate =>
    let isNew := s.isDeeper candidate.column
    let s := if isNew then s.roll candidate.column else s
    some { s.push .value (s.cursor.skip 1) with
      keys := s.keys.insert candidate.number isNew, candidate := none, keyAllowed := false }
  | none =>
    if !s.inFlow && !s.keyAllowed then none
    else
      let s := s.rollHere .blockMappingStart
      some { s.push .value (s.cursor.skip 1) with keyAllowed := !s.inFlow }

/-- A property of a node, which may be where a key starts. -/
def fetchProperty (s : Scanner) (token : Token) (stop : Cursor) : Option Scanner := do
  let s ← s.saveCandidate
  return { s.push token stop with keyAllowed := false }

/-- A block scalar. -/
def fetchBlockScalar (s : Scanner) (style : Style) : Option Scanner := do
  let s ← s.dropCandidate
  let (text, stop) ← blockScalar (style == .folded) s.indent s.cursor
  return { s.push (.scalar (String.ofList text) style) stop with keyAllowed := true }

/-- A quoted scalar. -/
def fetchQuoted (s : Scanner) (quote : Char) (style : Style) : Option Scanner := do
  let (text, stop) ← quotedScalar quote s.cursor
  s.fetchProperty (.scalar (String.ofList text) style) stop

/-- A plain scalar. One that ends with its line has moved on to a place where a key may start. -/
def fetchPlain (s : Scanner) : Option Scanner := do
  let (text, crosses, stop) ← plainScalar s.inFlow (s.indent + 1) s.cursor
  let s ← s.fetchProperty (.scalar (String.ofList text) .plain) stop
  return { s with keyAllowed := crosses }

/-- The next token. -/
def fetch (s : Scanner) : Option Scanner :=
  let c := s.cursor
  let next := c.rest.drop 1
  if c.column == 0 && c.rest.head? == some '%' then do
    let (token, stop) ← directiveToken c
    s.fetchMark token stop
  else if c.atMarker then
    s.fetchMark (if c.rest.head? == some '-' then .documentStart else .documentEnd) (c.skip 3)
  else
    match c.rest.head? with
    | some '[' => s.fetchFlowStart .flowSequenceStart
    | some '\x7b' => s.fetchFlowStart .flowMappingStart
    | some ']' => s.fetchFlowEnd .flowSequenceEnd
    | some '\x7d' => s.fetchFlowEnd .flowMappingEnd
    | some ',' => s.fetchFlowEntry
    | some '*' => do
      let (name, stop) ← anchorName (c.skip 1)
      s.fetchProperty (.alias name) stop
    | some '&' => do
      let (name, stop) ← anchorName (c.skip 1)
      s.fetchProperty (.anchor name) stop
    | some '!' => do
      let (token, stop) ← tagToken s.inFlow c
      s.fetchProperty token stop
    | some '\'' => s.fetchQuoted '\'' .singleQuoted
    | some '"' => s.fetchQuoted '"' .doubleQuoted
    | some x =>
      if x == '-' && endsWord next then s.fetchBlockEntry
      else if x == '?' && (s.inFlow || endsWord next) then s.fetchKey
      else if x == ':' && (s.inFlow || endsWord next) then s.fetchValue
      else if x == '|' && !s.inFlow then s.fetchBlockScalar .literal
      else if x == '>' && !s.inFlow then s.fetchBlockScalar .folded
      else if startsPlain s.inFlow c.rest then s.fetchPlain
      else none
    | none => none

/-- Scans to the end. Every token takes at least one character. -/
def run : (fuel : Nat) → Scanner → Option Scanner
  | 0, _ => none
  | fuel + 1, s => do
    let s ← s.toToken.dropStale
    let s := s.unroll s.cursor.column
    if s.cursor.rest.isEmpty then (s.unroll (-1)).dropCandidate
    else (← s.fetch).run fuel

/-- The tokens, with a key token before every key and the start of a block mapping before its first one. -/
def result (s : Scanner) : List Token :=
  s.tokens.toList.zipIdx.flatMap fun (token, number) =>
    match s.keys[number]? with
    | none => [token]
    | some false => [.key, token]
    | some true => [.blockMappingStart, .key, token]

end Scanner

/-!
### Texts
-/

/-- Characters that may stand in a document. -/
def isAllowed (c : Char) : Bool :=
  c == '\t' || c == '\n' || c == '\r' || (0x20 ≤ c.toNat && c.toNat ≤ 0x7E) || c.toNat == 0x85 ||
  (0xA0 ≤ c.toNat && c.toNat ≤ 0xFFFD) || 0x10000 ≤ c.toNat

/-- Line ends of all kinds but the two separators as line feeds. -/
def unifyBreaks : List Char → List Char
  | '\r' :: '\n' :: rest => '\n' :: unifyBreaks rest
  | c :: rest => (if c == '\r' || c.toNat == 0x85 then '\n' else c) :: unifyBreaks rest
  | [] => []

/-- A byte order mark. -/
def isOrderMark (c : Char) : Bool := c.toNat == 0xFEFF

/-- The start of a text. A byte order mark is no part of it; a second one is skipped, but takes up a column. -/
def Cursor.start (text : List Char) : Cursor :=
  let content := if text.head?.any isOrderMark then text.tail else text
  let start : Cursor := { rest := content, size := content.length }
  if text.head?.any isOrderMark && content.head?.any isOrderMark then start.skip 1 else start

/-- The tokens of a text, if it can be scanned to its end. -/
def tokens? (text : String) : Option (List Token) :=
  if text.toList.all isAllowed then
    let start := Cursor.start (unifyBreaks text.toList)
    (({ cursor := start } : Scanner).run (start.size + 2)).map (·.result)
  else
    none

end ScriptBytecode.Yaml
