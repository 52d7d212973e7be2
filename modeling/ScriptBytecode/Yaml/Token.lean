/-
Module: ScriptBytecode.Yaml.Token
Purpose: The tokens of YAML text: marks of documents and collections, properties of nodes, and scalars; and the
  reading of anchors, tags and directives.
Main exports: Token, anchorName, tagToken, directiveToken
-/
import ScriptBytecode.Yaml.Scalar

namespace ScriptBytecode.Yaml

/-- A token. Block collections have no brackets in the text; their starts and ends follow from columns. -/
inductive Token where
  | version (major minor : Nat)
  | tagDirective (handle lead : String)
  | documentStart
  | documentEnd
  | blockSequenceStart
  | blockMappingStart
  | blockEnd
  | flowSequenceStart
  | flowSequenceEnd
  | flowMappingStart
  | flowMappingEnd
  | blockEntry
  | flowEntry
  | key
  | value
  | alias (name : String)
  | anchor (name : String)
  | tag (handle suffix : String)
  | scalar (text : String) (style : Style)
deriving Repr, Inhabited, DecidableEq

/-- Characters of names. -/
def isNameChar (c : Char) : Bool := c.isAlphanum || c == '_' || c == '-'

/-- The name of an anchor or alias after its indicator. A blank or an indicator has to follow. -/
def anchorName (c : Cursor) : Option (String × Cursor) :=
  let name := c.rest.takeWhile isNameChar
  let stop := c.skip name.length
  let isEnded := endsWord stop.rest || stop.rest.head?.any fun x =>
    x == '?' || x == ':' || x == ',' || x == ']' || x == '\x7d' || x == '%' || x == '@' || x == '\x60'
  if name.isEmpty || !isEnded then none else some (String.ofList name, stop)

/-!
### Tags
-/

/-- Characters of tags; commas and brackets can only stand in verbatim tags. -/
def isTagChar (isVerbatim : Bool) (c : Char) : Bool :=
  isNameChar c || c == ';' || c == '/' || c == '?' || c == ':' || c == '@' || c == '&' || c == '=' ||
  c == '+' || c == '$' || c == '.' || c == '%' || c == '!' || c == '~' || c == '*' || c == '\'' ||
  c == '(' || c == ')' || (isVerbatim && (c == ',' || c == '[' || c == ']'))

/-- A byte written as a percent sign and two digits. -/
def percentByte : List Char → Option Nat
  | '%' :: high :: low :: _ => digits? 16 [high, low]
  | _ => none

/-- The bytes of a character after its first one, which also follow as percent escapes. -/
def percentTail : (count value : Nat) → List Char → Option Nat
  | 0, value, _ => some value
  | count + 1, value, rest => do
    let byte ← percentByte rest
    if byte / 64 = 2 then percentTail count (value * 64 + byte % 64) (rest.drop 3) else none

/-- A character written as percent escapes of its bytes, and the number of bytes. -/
def percentChar (rest : List Char) : Option (Char × Nat) := do
  let byte ← percentByte rest
  let (count, value) ←
    if byte < 0x80 then some (0, byte)
    else if byte / 32 = 6 then some (1, byte % 32)
    else if byte / 16 = 14 then some (2, byte % 16)
    else if byte / 8 = 30 then some (3, byte % 8)
    else none
  return (Char.ofNat (← percentTail count value (rest.drop 3)), count + 1)

/-- Text of a tag as far as it goes. -/
def tagText (isVerbatim : Bool) : (fuel : Nat) → Cursor → Option (List Char × Cursor)
  | 0, _ => none
  | fuel + 1, c =>
    match c.rest with
    | [] => some ([], c)
    | x :: rest =>
      if !isTagChar isVerbatim x then some ([], c)
      else do
        let (y, length) ←
          if x == '%' then (percentChar (x :: rest)).map fun (y, bytes) => (y, 3 * bytes)
          else some (x, 1)
        let (text, stop) ← tagText isVerbatim fuel (c.skip length)
        return (y :: text, stop)

/-- The handle of a tag: an exclamation mark, or a name between two of them. -/
def tagHandle (c : Cursor) : Option (List Char × Cursor) :=
  match c.rest with
  | '!' :: rest =>
    let name := rest.takeWhile isNameChar
    let stop := c.skip (name.length + 1)
    if stop.rest.head? == some '!' then some ('!' :: name ++ ['!'], stop.skip 1)
    else some ('!' :: name, stop)
  | _ => none

/-- A tag, from its exclamation mark on. What looks like a handle but does not end in an exclamation mark is the
    start of a local tag. A blank has to follow, or a comma in flow collections. -/
def tagToken (inFlow : Bool) (c : Cursor) : Option (Token × Cursor) := do
  let fuel := c.size + 1
  let (handle, suffix, stop) ←
    match c.rest with
    | '!' :: '<' :: _ => do
      let (suffix, stop) ← tagText true fuel (c.skip 2)
      if suffix.isEmpty || stop.rest.head? != some '>' then none
      pure ([], suffix, stop.skip 1)
    | _ => do
      let (handle, stop) ← tagHandle c
      let (suffix, stop) ← tagText false fuel stop
      if 1 < handle.length && handle.getLast? == some '!' then
        if suffix.isEmpty then none
        pure (handle, suffix, stop)
      else
        let name := handle.drop 1 ++ suffix
        pure (if name.isEmpty then ([], ['!'], stop) else (['!'], name, stop))
  if endsWord stop.rest || (inFlow && stop.rest.head? == some ',') then
    return (.tag (String.ofList handle) (String.ofList suffix), stop)
  else none

/-!
### Directives
-/

/-- A version number of at most nine digits. -/
def versionNumber (c : Cursor) : Option (Nat × Cursor) := do
  let digits := c.rest.takeWhile Char.isDigit
  if 9 < digits.length then none
  return (← digits? 10 digits, c.skip digits.length)

/-- The value of a directive after its name. -/
def directiveValue (name : List Char) (c : Cursor) : Option (Token × Cursor) :=
  let c := c.skipWhile isBlank
  if name = ['Y', 'A', 'M', 'L'] then do
    let (major, c) ← versionNumber c
    if c.rest.head? != some '.' then none
    let (minor, c) ← versionNumber (c.skip 1)
    return (.version major minor, c)
  else if name = ['T', 'A', 'G'] then do
    let (handle, c) ← tagHandle c
    if handle != ['!'] && !(1 < handle.length && handle.getLast? == some '!') then none
    if !c.rest.head?.any isBlank then none
    let c := c.skipWhile isBlank
    let (lead, c) ← tagText true (c.size + 1) c
    if lead.isEmpty || !endsWord c.rest then none
    return (.tagDirective (String.ofList handle) (String.ofList lead), c)
  else
    none

/-- A directive, from its percent sign to the end of its line. -/
def directiveToken (c : Cursor) : Option (Token × Cursor) := do
  let name := (c.rest.drop 1).takeWhile isNameChar
  let c := c.skip (name.length + 1)
  if name.isEmpty || !endsWord c.rest then none
  let (token, c) ← directiveValue name c
  let c := c.skipRemark
  if endsLine c.rest then some (token, c.skipBreak) else none

end ScriptBytecode.Yaml
