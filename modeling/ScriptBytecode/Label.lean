/-
Module: ScriptBytecode.Label
Purpose: Labels of one walk over a body, by the position at which they stand. A position has one label: the first
  that is registered. A `goto` to a position that the walk has passed without a label is remembered, so that a
  second walk can set the label in time.
Main exports: LabelOrigin, Label, gotoLabelName, LabelTable
-/
import Std.Data.TreeMap
import Std.Data.TreeSet
import ScriptBytecode.Text.Hex

namespace ScriptBytecode

/-- Where a label comes from: a label table, or a `goto` that needs one. -/
inductive LabelOrigin where
  | state
  | goto
deriving Repr, Inhabited, DecidableEq

/-- A label at a position. -/
structure Label where
  name : String
  position : Nat
  origin : LabelOrigin
deriving Repr, Inhabited, DecidableEq

/-- Name of the label made up for a jump target. -/
def gotoLabelName (position : Nat) : String := "J0x" ++ Text.hexUpper 4 position

/-- Labels of one walk. -/
structure LabelTable where
  /-- Labels that have not been written yet. -/
  pending : Std.TreeMap Nat Label := {}
  /-- Names of the labels that have been written. -/
  emitted : Std.TreeMap Nat String := {}
  /-- Targets that were passed without a label. -/
  missed : Std.TreeSet Nat := {}

namespace LabelTable

/-- Registers a label. A position that has a label already keeps it. -/
def register (table : LabelTable) (label : Label) : LabelTable :=
  if table.emitted.contains label.position then table
  else { table with pending := table.pending.insertIfNew label.position label }

/-- Name of the label for a `goto` from one position to another. A target without a label gets one, unless the
    walk is already past it. -/
def target (table : LabelTable) (target origin : Nat) : String × LabelTable :=
  match table.emitted[target]?, table.pending[target]? with
  | some name, _ => (name, table)
  | none, some label => (label.name, table)
  | none, none =>
    let name := gotoLabelName target
    if target ≤ origin then (name, { table with missed := table.missed.insert target })
    else (name, table.register ⟨name, target, .goto⟩)

/-- Takes the label to write before the instruction at a position. -/
def take (table : LabelTable) (position : Nat) : Option Label × LabelTable :=
  match table.pending[position]? with
  | none => (none, table)
  | some label =>
    (some label,
      { table with
        pending := table.pending.erase position
        emitted := table.emitted.insert position label.name })

/-- Takes the labels that were never written, by increasing position. -/
def drain (table : LabelTable) : List Label × LabelTable :=
  (table.pending.values, { table with pending := {} })

end LabelTable

end ScriptBytecode
