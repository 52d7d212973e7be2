/-
Module: ScriptBytecode.Yaml.Parse
Purpose: The grammar of YAML: tokens as the node of a document. Where a node is expected but another token comes, the
  grammar says whether an empty scalar is meant. A text holds one document at most.
Main exports: TokenParser, parseNode, parse
-/
import ScriptBytecode.Yaml.Node
import ScriptBytecode.Yaml.Scanner

namespace ScriptBytecode.Yaml

/-- State of a parse: the tokens that are left, the tag handles of the document, and the anchors so far. -/
structure ParseState where
  tokens : List Token
  /-- What each handle stands for. -/
  handles : List (String × String) := []
  /-- Numbers of the anchors, the last one first. -/
  anchors : List (String × Nat) := []

/-- Parses a part of a document. -/
abbrev TokenParser := StateT ParseState Option

namespace TokenParser

/-- The next token, without moving. -/
def peek : TokenParser (Option Token) := return (← get).tokens.head?

/-- Moves over a token. -/
def skip : TokenParser Unit := modify fun s => { s with tokens := s.tokens.tail }

/-- The next token is one of these. -/
def isNext (these : List Token) : TokenParser Bool := return (← peek).any these.contains

/-- Moves over a token if it comes next. -/
def accept (token : Token) : TokenParser Bool := do
  if ← isNext [token] then
    skip
    return true
  else
    return false

/-- Moves over a token that has to come next. -/
def expect (token : Token) : TokenParser Unit := do
  if !(← accept token) then failure

/-- Gives a new anchor its number, which is the number of different anchors so far. -/
def declare (name : String) : TokenParser Nat := do
  let anchors := (← get).anchors
  let number := anchors.length
  modify fun s => { s with anchors := (name, number) :: anchors.filter (·.1 != name) }
  return number

/-- A tag, with what its handle stands for. -/
def resolveTag (handle suffix : String) : TokenParser String := do
  if handle.isEmpty then return suffix
  match (← get).handles.lookup handle with
  | some lead => return lead ++ suffix
  | none => failure

/-- An anchor, if one comes next. -/
def anchorOption : TokenParser (Option Nat) := do
  match ← peek with
  | some (.anchor name) =>
    skip
    return some (← declare name)
  | _ => return none

/-- A tag, if one comes next. -/
def tagOption : TokenParser (Option String) := do
  match ← peek with
  | some (.tag handle suffix) =>
    skip
    return some (← resolveTag handle suffix)
  | _ => return none

/-- Anchor and tag of a node, in either order. -/
def properties : TokenParser Properties := do
  match ← anchorOption with
  | some anchor => return { anchor := some anchor, tag := ← tagOption }
  | none =>
    match ← tagOption with
    | some tag => return { anchor := ← anchorOption, tag := some tag }
    | none => return {}

end TokenParser

open TokenParser

/-- Where a node stands: inside a flow collection, as an item of a block collection, or as a key or value of a
    block mapping, where the dashes of a sequence may stand in the column of the keys. -/
inductive Place where
  | flow
  | block
  | blockPair
deriving Repr, Inhabited, DecidableEq

/-- Tokens that cannot start a key or value of a block mapping, so that an empty one is meant. -/
def afterPair : List Token := [.key, .value, .blockEnd]

/-- A node without content; it has properties at least. -/
def emptyNode (properties : Properties) : TokenParser Node :=
  if properties = {} then failure else return .scalar properties "" .plain

mutual

/-- A node. -/
def parseNode (place : Place) : (fuel : Nat) → TokenParser Node
  | 0 => failure
  | fuel + 1 => do
    if let some (.alias name) ← peek then
      match (← get).anchors.lookup name with
      | some number =>
        skip
        return .alias number
      | none => failure
    let properties ← properties
    match ← peek with
    | some .blockEntry =>
      if place = .blockPair then return .sequence properties (← parseDashes fuel)
      else emptyNode properties
    | some (.scalar text style) =>
      skip
      let tag := if properties.tag = some "!" then none else properties.tag
      return .scalar { properties with tag } text style
    | some .flowSequenceStart =>
      skip
      return .sequence properties (← parseFlowItems true fuel)
    | some .flowMappingStart =>
      skip
      return .mapping properties (← parseFlowEntries true fuel)
    | some .blockSequenceStart =>
      if place = .flow then emptyNode properties
      else
        skip
        return .sequence properties (← parseItems fuel)
    | some .blockMappingStart =>
      if place = .flow then emptyNode properties
      else
        skip
        return .mapping properties (← parseEntries fuel)
    | _ => emptyNode properties

/-- A node, or an empty one if one of the given tokens comes next. -/
def parseUnless (these : List Token) (place : Place) : (fuel : Nat) → TokenParser Node
  | 0 => failure
  | fuel + 1 => do
    if ← isNext these then return .nothing else parseNode place fuel

/-- Items of a block sequence, up to its end. -/
def parseItems : (fuel : Nat) → TokenParser (List Node)
  | 0 => failure
  | fuel + 1 => do
    if ← accept .blockEnd then return []
    expect .blockEntry
    let item ← parseUnless [.blockEntry, .blockEnd] .block fuel
    return item :: (← parseItems fuel)

/-- Items of a block sequence whose dashes stand in the column of a mapping's keys. It has no end of its own. -/
def parseDashes : (fuel : Nat) → TokenParser (List Node)
  | 0 => failure
  | fuel + 1 => do
    if ← accept .blockEntry then
      let item ← parseUnless (.blockEntry :: afterPair) .block fuel
      return item :: (← parseDashes fuel)
    else
      return []

/-- Entries of a block mapping, up to its end. -/
def parseEntries : (fuel : Nat) → TokenParser (List (Node × Node))
  | 0 => failure
  | fuel + 1 => do
    if ← accept .blockEnd then return []
    expect .key
    let key ← parseUnless afterPair .blockPair fuel
    let value ← if ← accept .value then parseUnless afterPair .blockPair fuel else pure .nothing
    return (key, value) :: (← parseEntries fuel)

/-- Items of a flow sequence, up to its end. An item that starts with a key is a mapping with one entry; a key
    that is missing takes the token that stands in its place. -/
def parseFlowItems (isFirst : Bool) : (fuel : Nat) → TokenParser (List Node)
  | 0 => failure
  | fuel + 1 => do
    if ← accept .flowSequenceEnd then return []
    if !isFirst then expect .flowEntry
    if ← accept .flowSequenceEnd then return []
    let item ←
      if ← accept .key then do
        let isMissing ← isNext [.value, .flowEntry, .flowSequenceEnd]
        let key ← if isMissing then do skip; pure .nothing else parseNode .flow fuel
        let value ←
          if ← accept .value then parseUnless [.flowEntry, .flowSequenceEnd] .flow fuel
          else pure .nothing
        pure (Node.mapping {} [(key, value)])
      else parseNode .flow fuel
    return item :: (← parseFlowItems false fuel)

/-- Entries of a flow mapping, up to its end. An entry without a key token has no value. -/
def parseFlowEntries (isFirst : Bool) : (fuel : Nat) → TokenParser (List (Node × Node))
  | 0 => failure
  | fuel + 1 => do
    if ← accept .flowMappingEnd then return []
    if !isFirst then expect .flowEntry
    if ← accept .flowMappingEnd then return []
    let entry ←
      if ← accept .key then do
        let key ← parseUnless [.value, .flowEntry, .flowMappingEnd] .flow fuel
        let value ←
          if ← accept .value then parseUnless [.flowEntry, .flowMappingEnd] .flow fuel
          else pure .nothing
        pure (key, value)
      else do
        let key ← parseNode .flow fuel
        pure (key, .nothing)
    return entry :: (← parseFlowEntries false fuel)

end

/-!
### Documents
-/

/-- The handles that every document has. -/
def usualHandles : List (String × String) := [("!", "!"), ("!!", "tag:yaml.org,2002:")]

/-- The directives of a document. The version may be given once and has to be a known one; a handle may be given
    once. -/
def parseDirectives : (fuel : Nat) → (hasVersion : Bool) → TokenParser Unit
  | 0, _ => failure
  | fuel + 1, hasVersion => do
    match ← peek with
    | some (.version major minor) =>
      if hasVersion || major != 1 || (minor != 1 && minor != 2) then failure
      skip
      parseDirectives fuel true
    | some (.tagDirective handle lead) =>
      if ((← get).handles.lookup handle).isSome then failure
      modify fun s => { s with handles := (handle, lead) :: s.handles }
      skip
      parseDirectives fuel hasVersion
    | _ => return

/-- A token that starts a document explicitly. -/
def startsDocument : Token → Bool
  | .version _ _ | .tagDirective _ _ | .documentStart => true
  | _ => false

/-- Moves over marks of a document's end. -/
def skipEnds : TokenParser Unit :=
  modify fun s => { s with tokens := s.tokens.dropWhile (· == .documentEnd) }

/-- The document of a text, if there is one; nothing may come after it. -/
def parseDocument (fuel : Nat) : TokenParser (Option Node) := do
  match ← peek with
  | none => return none
  | some token =>
    let node ←
      if startsDocument token then do
        parseDirectives fuel false
        expect .documentStart
        modify fun s => { s with handles := s.handles ++ usualHandles }
        let next ← peek
        if next.all fun t => startsDocument t || t == .documentEnd then pure Node.nothing
        else parseNode .block fuel
      else do
        modify fun s => { s with handles := usualHandles }
        parseNode .block fuel
    skipEnds
    if (← peek).isSome then failure
    return some node

/-- The document that a text holds, if the text is well-formed; an empty document holds no node. At most three
    steps of the grammar go without a token. -/
def parse (text : String) : Option (Option Node) := do
  let tokens ← tokens? text
  (parseDocument (3 * tokens.length + 3)).run' { tokens }

end ScriptBytecode.Yaml
