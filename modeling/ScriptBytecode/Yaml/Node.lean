/-
Module: ScriptBytecode.Yaml.Node
Purpose: YAML documents as trees. A node may have an anchor and a tag; an alias stands for the node with its anchor,
  which may be one of the nodes around the alias.
Main exports: Properties, Node, Node.anchors, Node.eventCount
-/
import ScriptBytecode.Yaml.Scalar

namespace ScriptBytecode.Yaml

/-- What can be said about a node besides its content. -/
structure Properties where
  /-- Number of the node's anchor. -/
  anchor : Option Nat := none
  tag : Option String := none
deriving Repr, Inhabited, DecidableEq

/-- A node of a document. -/
inductive Node where
  | alias (anchor : Nat)
  | scalar (properties : Properties) (text : String) (style : Style)
  | sequence (properties : Properties) (items : List Node)
  | mapping (properties : Properties) (entries : List (Node × Node))
deriving Repr, Inhabited

namespace Node

/-- A plain scalar. -/
def plain (text : String) : Node := .scalar {} text .plain

/-- A double-quoted scalar. -/
def quoted (text : String) : Node := .scalar {} text .doubleQuoted

/-- The node that stands for nothing: a plain scalar without text. -/
def nothing : Node := plain ""

/-- Anchor of a node. -/
def anchor? : Node → Option Nat
  | .alias _ => none
  | .scalar properties _ _ | .sequence properties _ | .mapping properties _ => properties.anchor

/-- All nodes of a tree, in the order in which they start. -/
def all (node : Node) : List Node :=
  match node with
  | .alias _ | .scalar _ _ _ => [node]
  | .sequence _ items => node :: items.attach.flatMap fun ⟨item, _⟩ => item.all
  | .mapping _ entries => node :: entries.attach.flatMap fun ⟨(key, value), _⟩ => key.all ++ value.all
termination_by sizeOf node
decreasing_by
  · have := List.sizeOf_lt_of_mem ‹_ ∈ items›
    simp; omega
  · have := List.sizeOf_lt_of_mem ‹_ ∈ entries›
    simp at this ⊢; omega
  · have := List.sizeOf_lt_of_mem ‹_ ∈ entries›
    simp at this ⊢; omega

/-- Nodes with an anchor, the last one first. -/
def anchors (node : Node) : List (Nat × Node) :=
  (node.all.filterMap fun n => n.anchor?.map (·, n)).reverse

/-- Number of events that a tree is written with: one for each scalar and alias, two for each collection. -/
def eventCount (node : Node) : Nat :=
  (node.all.map fun
    | .alias _ | .scalar _ _ _ => 1
    | .sequence _ _ | .mapping _ _ => 2).foldr (· + ·) 0

end Node

end ScriptBytecode.Yaml
