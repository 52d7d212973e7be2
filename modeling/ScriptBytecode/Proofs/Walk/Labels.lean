/-
Module: ScriptBytecode.Proofs.Walk.Labels
Purpose: Labels of one walk. A position that has a name keeps it; its label is written before the instruction there,
  or after the last one, and never twice. A `goto` is written with the name of its target, or its target is missed, and
  a target that was missed never gets a label.
Main exports: LabelTable.nameAt?, LabelTable.target_cases, Walk.Labelled, Walk.Labelled.follow,
  Setting.labelled_walkTo, Setting.exists_index_of_emitted
-/
import ScriptBytecode.Proofs.Walk.Frame

namespace ScriptBytecode

namespace LabelTable

/-- Name of the label of a position, whether it has been written or not. -/
def nameAt? (table : LabelTable) (position : Nat) : Option String :=
  table.emitted[position]?.or (table.pending[position]?.map (·.name))

theorem nameAt?_eq_none {table : LabelTable} {position : Nat} :
    table.nameAt? position = none ↔ table.emitted[position]? = none ∧ table.pending[position]? = none := by
  simp [nameAt?]

/-!
### Registering
-/

theorem register_emitted (table : LabelTable) (label : Label) :
    (table.register label).emitted = table.emitted := by
  unfold register
  split <;> rfl

theorem register_missed (table : LabelTable) (label : Label) :
    (table.register label).missed = table.missed := by
  unfold register
  split <;> rfl

/-- A label is registered where there is none. -/
theorem register_pending (table : LabelTable) (label : Label) (position : Nat) :
    (table.register label).pending[position]? =
      if label.position = position ∧ table.nameAt? position = none then some label
      else table.pending[position]? := by
  unfold register
  split
  · rename_i hemitted
    rw [Std.TreeMap.contains_eq_isSome_getElem?] at hemitted
    split
    · rename_i hnew
      rw [hnew.1, (nameAt?_eq_none.1 hnew.2).1] at hemitted
      cases hemitted
    · rfl
  · rename_i hemitted
    rw [Std.TreeMap.contains_eq_isSome_getElem?, Bool.not_eq_true, Option.isSome_eq_false_iff,
      Option.isNone_iff_eq_none] at hemitted
    dsimp only
    rw [Std.TreeMap.getElem?_insertIfNew]
    by_cases hposition : label.position = position
    · subst hposition
      have hname : table.nameAt? label.position = none ↔ label.position ∉ table.pending := by
        rw [nameAt?_eq_none, Std.TreeMap.mem_iff_isSome_getElem?, hemitted]
        simp only [true_and, Bool.not_eq_true, Option.isSome_eq_false_iff, Option.isNone_iff_eq_none]
      simp [hname]
    · simp [hposition]

/-- A position that has a name keeps it. -/
theorem nameAt?_register_of_some {table : LabelTable} {position : Nat} {name : String}
    (h : table.nameAt? position = some name) (label : Label) :
    (table.register label).nameAt? position = some name := by
  have hpending := table.register_pending label position
  rw [if_neg (by simp [h])] at hpending
  rw [nameAt?, hpending, register_emitted]
  exact h

theorem nameAt?_register_of_ne {table : LabelTable} {label : Label} {position : Nat}
    (h : label.position ≠ position) : (table.register label).nameAt? position = table.nameAt? position := by
  have hpending := table.register_pending label position
  rw [if_neg (by simp [h])] at hpending
  rw [nameAt?, hpending, register_emitted]
  rfl

/-- After registering a label at a position, the position has a name. -/
theorem nameAt?_register_self {table : LabelTable} (label : Label)
    (h : table.nameAt? label.position = none) :
    (table.register label).nameAt? label.position = some label.name := by
  have hpending := table.register_pending label label.position
  rw [if_pos ⟨rfl, h⟩] at hpending
  rw [nameAt?, hpending, register_emitted, (nameAt?_eq_none.1 h).1]
  rfl

/-!
### Jumping
-/

/-- The name of a target is looked up; a target without a name is missed when it is behind, and gets a label when it
    is ahead. -/
theorem target_cases (table : LabelTable) (target origin : Nat) :
    (∃ name, table.nameAt? target = some name ∧ table.target target origin = (name, table)) ∨
    (table.nameAt? target = none ∧ target ≤ origin ∧
      table.target target origin =
        (gotoLabelName target, { table with missed := table.missed.insert target })) ∨
    (table.nameAt? target = none ∧ origin < target ∧
      table.target target origin =
        (gotoLabelName target, table.register ⟨gotoLabelName target, target, .goto⟩)) := by
  unfold LabelTable.target nameAt?
  cases hemitted : table.emitted[target]? with
  | some name => exact Or.inl ⟨name, rfl, rfl⟩
  | none =>
      cases hpending : table.pending[target]? with
      | some label => exact Or.inl ⟨label.name, rfl, rfl⟩
      | none =>
          by_cases hbehind : target ≤ origin
          · exact Or.inr (Or.inl ⟨rfl, hbehind, by simp [hbehind]⟩)
          · exact Or.inr (Or.inr ⟨rfl, Nat.lt_of_not_le hbehind, by simp [hbehind]⟩)

theorem target_of_name {table : LabelTable} {target : Nat} {name : String} (h : table.nameAt? target = some name)
    (origin : Nat) : table.target target origin = (name, table) := by
  rcases table.target_cases target origin with ⟨other, hother, htarget⟩ | ⟨hnone, -⟩ | ⟨hnone, -⟩
  · rw [h] at hother
    cases hother
    exact htarget
  · rw [h] at hnone
    cases hnone
  · rw [h] at hnone
    cases hnone

theorem target_of_behind {table : LabelTable} {target origin : Nat} (h : table.nameAt? target = none)
    (hbehind : target ≤ origin) :
    table.target target origin = (gotoLabelName target, { table with missed := table.missed.insert target }) := by
  rcases table.target_cases target origin with ⟨name, hname, -⟩ | ⟨-, -, htarget⟩ | ⟨-, hahead, -⟩
  · rw [h] at hname
    cases hname
  · exact htarget
  · exact absurd hahead (Nat.not_lt.2 hbehind)

theorem target_of_ahead {table : LabelTable} {target origin : Nat} (h : table.nameAt? target = none)
    (hahead : origin < target) :
    table.target target origin =
      (gotoLabelName target, table.register ⟨gotoLabelName target, target, .goto⟩) := by
  rcases table.target_cases target origin with ⟨name, hname, -⟩ | ⟨-, hbehind, -⟩ | ⟨-, -, htarget⟩
  · rw [h] at hname
    cases hname
  · exact absurd hahead (Nat.not_lt.2 hbehind)
  · exact htarget

/-- A jump takes no name away and forgets no target that was missed. -/
theorem target_mono (table : LabelTable) (target origin : Nat) :
    (∀ p name, table.nameAt? p = some name → (table.target target origin).2.nameAt? p = some name) ∧
      ∀ p ∈ table.missed, p ∈ (table.target target origin).2.missed := by
  rcases table.target_cases target origin with ⟨name, -, htarget⟩ | ⟨-, -, htarget⟩ | ⟨-, -, htarget⟩
  · rw [htarget]
    exact ⟨fun _ _ hname => hname, fun _ hp => hp⟩
  · rw [htarget]
    exact ⟨fun _ _ hname => hname, fun p hp => Std.TreeSet.mem_insert.2 (Or.inr hp)⟩
  · rw [htarget]
    exact ⟨fun _ _ hname => nameAt?_register_of_some hname _, fun p hp => (register_missed ..).symm ▸ hp⟩

/-- Jumps write no labels. -/
theorem target_emitted (table : LabelTable) (target origin : Nat) :
    (table.target target origin).2.emitted = table.emitted := by
  rcases table.target_cases target origin with ⟨name, -, htarget⟩ | ⟨-, -, htarget⟩ | ⟨-, -, htarget⟩
  · rw [htarget]
  · rw [htarget]
  · rw [htarget]
    exact register_emitted ..

/-!
### Writing
-/

/-- The label of a position passes from the labels that wait to those that have been written. -/
def write (table : LabelTable) (position : Nat) (label : Label) : LabelTable :=
  { table with
    pending := table.pending.erase position
    emitted := table.emitted.insert position label.name }

theorem take_of_none {table : LabelTable} {position : Nat} (h : table.pending[position]? = none) :
    table.take position = (none, table) := by
  simp [take, h]

theorem take_of_some {table : LabelTable} {position : Nat} {label : Label}
    (h : table.pending[position]? = some label) :
    table.take position = (some label, table.write position label) := by
  simp [take, h, write]

theorem write_pending (table : LabelTable) (position : Nat) (label : Label) (other : Nat) :
    (table.write position label).pending[other]? = if position = other then none else table.pending[other]? := by
  simp [write, Std.TreeMap.getElem?_erase]

theorem write_emitted (table : LabelTable) (position : Nat) (label : Label) (other : Nat) :
    (table.write position label).emitted[other]? =
      if position = other then some label.name else table.emitted[other]? := by
  simp [write, Std.TreeMap.getElem?_insert]

/-- Writing a label changes no name. -/
theorem nameAt?_write {table : LabelTable} {position : Nat} {label : Label}
    (hpending : table.pending[position]? = some label) (hemitted : table.emitted[position]? = none)
    (other : Nat) : (table.write position label).nameAt? other = table.nameAt? other := by
  rw [nameAt?, nameAt?, write_pending, write_emitted]
  by_cases hother : position = other
  · subst hother
    simp [hpending, hemitted]
  · simp [hother]

/-!
### Draining

Labels that are still waiting are taken by increasing position.
-/

/-- A map has at most one entry for a key. -/
theorem toList_filter_key (entries : Std.TreeMap Nat Label) (p : Nat) :
    entries.toList.filter (·.1 == p) = (entries[p]?.map (p, ·)).toList := by
  have hfilter := (Std.TreeMap.toList_filter (t := entries) (f := fun k _ => k == p)).symm
  cases hp : entries[p]? with
  | none =>
      have hequiv : (entries.filter fun k _ => k == p).Equiv ∅ := by
        apply Std.TreeMap.Equiv.of_forall_constGet?_eq
        intro k
        rw [Std.TreeMap.getElem?_filter']
        by_cases hk : k = p
        · simp [hk, hp]
        · simp [hk]
      exact hfilter.trans hequiv.toList_eq
  | some label =>
      have hequiv : (entries.filter fun k _ => k == p).Equiv ((∅ : Std.TreeMap Nat Label).insert p label) := by
        apply Std.TreeMap.Equiv.of_forall_constGet?_eq
        intro k
        rw [Std.TreeMap.getElem?_filter', Std.TreeMap.getElem?_insert]
        by_cases hk : k = p
        · simp [hk, hp]
        · simp [hk, Ne.symm hk]
      exact hfilter.trans hequiv.toList_eq

theorem values_eq_map_toList (entries : Std.TreeMap Nat Label) : entries.values = entries.toList.map (·.2) := by
  have hfold : entries.values = entries.foldr (fun _ label rest => label :: rest) [] := rfl
  rw [hfold, Std.TreeMap.foldr_eq_foldr_toList]
  induction entries.toList with
  | nil => rfl
  | cons entry rest ih => rw [List.foldr_cons, List.map_cons, ih]

/-- The labels from a position on, in order. -/
def labelsFrom (table : LabelTable) (start : Nat) : List Label :=
  table.drain.1.filter (start ≤ ·.position)

/-- Every label is kept by its position. -/
def Keyed (table : LabelTable) : Prop := ∀ p (label : Label), table.pending[p]? = some label → label.position = p

theorem labelsFrom_eq {table : LabelTable} (h : table.Keyed) (start : Nat) :
    table.labelsFrom start = (table.pending.toList.filter (start ≤ ·.1)).map (·.2) := by
  unfold labelsFrom drain
  rw [values_eq_map_toList, List.filter_map]
  congr 1
  apply List.filter_congr
  intro entry hentry
  rw [Function.comp_apply, h entry.1 entry.2 (Std.TreeMap.mem_toList_iff_getElem?_eq_some.1 hentry)]

/-- From a position on, the labels of a position are at most the one that it is kept by. -/
theorem labelsFrom_filter {table : LabelTable} (h : table.Keyed) (start p : Nat) :
    (table.labelsFrom start).filter (·.position == p) =
      if start ≤ p then table.pending[p]?.toList else [] := by
  have hposition : (table.labelsFrom start).filter (·.position == p) =
      ((table.pending.toList.filter (·.1 == p)).filter (start ≤ ·.1)).map (·.2) := by
    rw [labelsFrom_eq h, List.filter_map, List.filter_filter, List.filter_filter]
    congr 1
    apply List.filter_congr
    intro entry hentry
    rw [Function.comp_apply, h entry.1 entry.2 (Std.TreeMap.mem_toList_iff_getElem?_eq_some.1 hentry), Bool.and_comm]
  rw [hposition, toList_filter_key]
  cases table.pending[p]? with
  | none => simp
  | some label => by_cases hstart : start ≤ p <;> simp [hstart]

/-- The labels from a position on hang on the entries from there on only. -/
theorem labelsFrom_congr {table other : LabelTable} (h : table.Keyed) (hother : other.Keyed) {start : Nat}
    (hsame : ∀ p, start ≤ p → table.pending[p]? = other.pending[p]?) :
    table.labelsFrom start = other.labelsFrom start := by
  have hequiv : (table.pending.filter fun k _ => decide (start ≤ k)).Equiv
      (other.pending.filter fun k _ => decide (start ≤ k)) := by
    apply Std.TreeMap.Equiv.of_forall_constGet?_eq
    intro k
    rw [Std.TreeMap.getElem?_filter', Std.TreeMap.getElem?_filter']
    by_cases hk : start ≤ k
    · rw [hsame k hk]
    · simp [hk]
  rw [labelsFrom_eq h, labelsFrom_eq hother]
  have hlists := hequiv.toList_eq
  rw [Std.TreeMap.toList_filter, Std.TreeMap.toList_filter] at hlists
  rw [hlists]

end LabelTable

/-!
### Steps
-/

/-- The event is a label at a position that satisfies a condition. -/
def Event.isLabelWhere (condition : Nat → Bool) : Event → Bool
  | .label _ position => condition position
  | _ => false

theorem Event.isLabelWhere_of_fromMarker {e : Event} (h : e.fromMarker = true) (condition : Nat → Bool) :
    e.isLabelWhere condition = false := by
  cases e with
  | label name position => cases h
  | _ => rfl

/-- The line of a jump to `target`: it has no text of its own, or is a `continue`, or is a `goto` with the name of the
    target, unless that is missed. -/
def Line.Reaches (line : Line) (labels : LabelTable) (target : Nat) : Prop :=
  line.text = "" ∨ line.text = "continue" ∨
    ∃ lead name, Walk.IsLead lead ∧ line.text = s!"{lead}goto {name}" ∧
      (labels.nameAt? target = some name ∨ target ∈ labels.missed)

/-- A line still reaches its target when labels are added. -/
theorem Line.Reaches.mono {line : Line} {labels later : LabelTable} {target : Nat} (h : line.Reaches labels target)
    (hname : ∀ name, labels.nameAt? target = some name → later.nameAt? target = some name)
    (hmissed : target ∈ labels.missed → target ∈ later.missed) : line.Reaches later target := by
  rcases h with h | h | ⟨lead, name, hlead, htext, h⟩
  · exact Or.inl h
  · exact Or.inr (Or.inl h)
  · exact Or.inr (Or.inr ⟨lead, name, hlead, htext, h.imp (hname name) hmissed⟩)

namespace Walk

theorem writeLabel_of_none {walk : Walk} {position : Nat} (h : walk.labels.pending[position]? = none) :
    walk.writeLabel position = walk := by
  unfold writeLabel
  rw [LabelTable.take_of_none h]

theorem writeLabel_of_some {walk : Walk} {position : Nat} {label : Label}
    (h : walk.labels.pending[position]? = some label) :
    walk.writeLabel position =
      { walk with labels := walk.labels.write position label }.emit (.label label.name label.position) := by
  unfold writeLabel
  rw [LabelTable.take_of_some h]

theorem writeLabel_missed (walk : Walk) (position : Nat) :
    (walk.writeLabel position).labels.missed = walk.labels.missed := by
  cases hpending : walk.labels.pending[position]? with
  | none => rw [writeLabel_of_none hpending]
  | some label =>
      rw [writeLabel_of_some hpending]
      rfl

/-- The labels of a walk that has passed some instructions, each of which stands before the next. -/
structure Labelled (walk : Walk) (passed : List Instruction) : Prop where
  /-- A label that waits is kept by its position. -/
  keyed : walk.labels.Keyed
  /-- A label that waits is not that of an instruction that was passed. -/
  ahead : ∀ p label, walk.labels.pending[p]? = some label → ∀ i ∈ passed, i.position ≠ p
  /-- A label that was written is that of an instruction that was passed. -/
  behind : ∀ p name, walk.labels.emitted[p]? = some name → ∃ i ∈ passed, i.position = p
  /-- The labels that were written are in the events, each once. -/
  written : ∀ p, walk.events.toList.filter (·.isLabelWhere (· == p)) =
    (walk.labels.emitted[p]?.map (Event.label · p)).toList
  /-- A target that was missed is behind and has no label. -/
  missed : ∀ p ∈ walk.labels.missed, walk.labels.nameAt? p = none ∧ ∃ i ∈ passed, p ≤ i.position
  /-- Every line is that of an instruction that was passed, and reaches the target of a jump. -/
  said : ∀ line, .statement line ∈ walk.events.toList → ∃ i ∈ passed, i.position = line.position ∧
    ∀ target, i.branchTarget? = some target → line.Reaches walk.labels target

namespace Labelled

variable {walk : Walk} {passed : List Instruction}

theorem emitted_eq_none (h : walk.Labelled passed) {p : Nat} {label : Label}
    (hpending : walk.labels.pending[p]? = some label) : walk.labels.emitted[p]? = none := by
  cases hemitted : walk.labels.emitted[p]? with
  | none => rfl
  | some name =>
      obtain ⟨i, hi, hposition⟩ := h.behind p name hemitted
      exact absurd hposition (h.ahead p label hpending i hi)

theorem nameAt?_writeLabel (h : walk.Labelled passed) (position p : Nat) :
    (walk.writeLabel position).labels.nameAt? p = walk.labels.nameAt? p := by
  cases hpending : walk.labels.pending[position]? with
  | none => rw [writeLabel_of_none hpending]
  | some label =>
      rw [writeLabel_of_some hpending]
      exact LabelTable.nameAt?_write hpending (h.emitted_eq_none hpending) p

/-- The walk passes an instruction that no label waits for. -/
theorem pass (h : walk.Labelled passed) {i : Instruction} (hnone : walk.labels.pending[i.position]? = none) :
    walk.Labelled (passed ++ [i]) := by
  have hmem : ∀ j ∈ passed, j ∈ passed ++ [i] := fun j hj => List.mem_append_left _ hj
  constructor
  · exact h.keyed
  · intro p label hpending j hj hposition
    rcases List.mem_append.1 hj with hj | hj
    · exact h.ahead p label hpending j hj hposition
    · obtain rfl := List.mem_singleton.1 hj
      rw [← hposition, hnone] at hpending
      cases hpending
  · intro p name hemitted
    obtain ⟨j, hj, hposition⟩ := h.behind p name hemitted
    exact ⟨j, hmem j hj, hposition⟩
  · exact h.written
  · intro p hp
    obtain ⟨hname, j, hj, hle⟩ := h.missed p hp
    exact ⟨hname, j, hmem j hj, hle⟩
  · intro line hline
    obtain ⟨j, hj, hsaid⟩ := h.said line hline
    exact ⟨j, hmem j hj, hsaid⟩

/-- The walk passes an instruction and writes its label. -/
theorem passLabel (h : walk.Labelled passed) {i : Instruction} {label : Label}
    (hlabel : walk.labels.pending[i.position]? = some label) :
    Labelled ({ walk with labels := walk.labels.write i.position label }.emit (.label label.name label.position))
      (passed ++ [i]) := by
  have hposition := h.keyed _ _ hlabel
  have hunwritten := h.emitted_eq_none hlabel
  have hname := LabelTable.nameAt?_write hlabel hunwritten
  have hmem : ∀ j ∈ passed, j ∈ passed ++ [i] := fun j hj => List.mem_append_left _ hj
  have hpending : ∀ p other, (walk.labels.write i.position label).pending[p]? = some other →
      p ≠ i.position ∧ walk.labels.pending[p]? = some other := by
    intro p other hother
    rw [LabelTable.write_pending] at hother
    split at hother
    · cases hother
    · rename_i hne
      exact ⟨Ne.symm hne, hother⟩
  constructor
  · exact fun p other hother => h.keyed p other (hpending p other hother).2
  · intro p other hother j hj hsame
    obtain ⟨hne, hwaits⟩ := hpending p other hother
    rcases List.mem_append.1 hj with hj | hj
    · exact h.ahead p other hwaits j hj hsame
    · rw [List.mem_singleton.1 hj] at hsame
      exact hne hsame.symm
  · intro p name hemitted
    change (walk.labels.write i.position label).emitted[p]? = some name at hemitted
    rw [LabelTable.write_emitted] at hemitted
    split at hemitted
    · rename_i hsame
      exact ⟨i, by simp, hsame⟩
    · obtain ⟨j, hj, hposition⟩ := h.behind p name hemitted
      exact ⟨j, hmem j hj, hposition⟩
  · intro p
    show (walk.events.push _).toList.filter _ =
      ((walk.labels.write i.position label).emitted[p]?.map (Event.label · p)).toList
    rw [Array.toList_push, List.filter_append, h.written, LabelTable.write_emitted]
    by_cases hsame : i.position = p
    · subst hsame
      simp [hunwritten, hposition, Event.isLabelWhere]
    · have hne : label.position ≠ p := hposition ▸ hsame
      simp [hsame, hne, Event.isLabelWhere]
  · intro p hp
    obtain ⟨hnone, j, hj, hle⟩ := h.missed p hp
    exact ⟨(hname p).trans hnone, j, hmem j hj, hle⟩
  · intro line hline
    change Event.statement line ∈ (walk.events.push _).toList at hline
    rw [Array.toList_push, List.mem_append] at hline
    rcases hline with hline | hline
    · obtain ⟨j, hj, hsame, hreaches⟩ := h.said line hline
      exact ⟨j, hmem j hj, hsame, fun target htarget =>
        (hreaches target htarget).mono (fun name hsome => (hname target).trans hsome) id⟩
    · cases List.mem_singleton.1 hline

theorem writeLabel (h : walk.Labelled passed) (i : Instruction) :
    (walk.writeLabel i.position).Labelled (passed ++ [i]) := by
  cases hpending : walk.labels.pending[i.position]? with
  | none =>
      rw [writeLabel_of_none hpending]
      exact h.pass hpending
  | some label =>
      rw [writeLabel_of_some hpending]
      exact h.passLabel hpending

/-- Events other than labels and lines. -/
theorem record (h : walk.Labelled passed) (new : Array Event) (blocks : Blocks) (previous : Option Opcode)
    (hlabels : ∀ e ∈ new.toList, ∀ condition, e.isLabelWhere condition = false)
    (hlines : ∀ e ∈ new.toList, ∀ line, e ≠ .statement line) :
    ((walk.resume blocks previous).record new).Labelled passed := by
  constructor
  · exact h.keyed
  · exact h.ahead
  · exact h.behind
  · intro p
    show (walk.events ++ new).toList.filter _ = _
    rw [Array.toList_append, List.filter_append, h.written, List.filter_eq_nil_iff.2, List.append_nil]
    · rfl
    · intro e he
      simp [hlabels e he]
  · exact h.missed
  · intro line hline
    change Event.statement line ∈ (walk.events ++ new).toList at hline
    rw [Array.toList_append, List.mem_append] at hline
    rcases hline with hline | hline
    · exact h.said line hline
    · exact absurd rfl (hlines _ hline line)

/-- A target behind that has no label is missed. -/
theorem miss (h : walk.Labelled passed) {i : Instruction} {target : Nat} (hi : i ∈ passed)
    (hbehind : target ≤ i.position) (hnone : walk.labels.nameAt? target = none) :
    Labelled { walk with labels := { walk.labels with missed := walk.labels.missed.insert target } } passed := by
  constructor
  · exact h.keyed
  · exact h.ahead
  · exact h.behind
  · exact h.written
  · intro p hp
    rcases Std.TreeSet.mem_insert.1 hp with hsame | hp
    · obtain rfl := Std.compare_eq_iff_eq.1 hsame
      exact ⟨hnone, i, hi, hbehind⟩
    · exact h.missed p hp
  · intro line hline
    obtain ⟨j, hj, hsame, hreaches⟩ := h.said line hline
    exact ⟨j, hj, hsame, fun other hother =>
      (hreaches other hother).mono (fun _ hsome => hsome) fun hmissed => Std.TreeSet.mem_insert.2 (Or.inr hmissed)⟩

/-- A label is registered ahead of all instructions that were passed. -/
theorem register (h : walk.Labelled passed) (label : Label) (hahead : ∀ j ∈ passed, j.position < label.position) :
    Labelled { walk with labels := walk.labels.register label } passed := by
  constructor
  · intro p other hpending
    change (walk.labels.register label).pending[p]? = some other at hpending
    rw [LabelTable.register_pending] at hpending
    split at hpending
    · rename_i hnew
      cases hpending
      exact hnew.1
    · exact h.keyed p other hpending
  · intro p other hpending j hj hposition
    change (walk.labels.register label).pending[p]? = some other at hpending
    rw [LabelTable.register_pending] at hpending
    split at hpending
    · rename_i hnew
      have hlt := hahead j hj
      rw [hnew.1, hposition] at hlt
      exact Nat.lt_irrefl _ hlt
    · exact h.ahead p other hpending j hj hposition
  · intro p name hemitted
    exact h.behind p name (LabelTable.register_emitted walk.labels label ▸ hemitted)
  · intro p
    show _ = ((walk.labels.register label).emitted[p]?.map (Event.label · p)).toList
    rw [LabelTable.register_emitted]
    exact h.written p
  · intro p hp
    obtain ⟨hnone, j, hj, hle⟩ := h.missed p (LabelTable.register_missed walk.labels label ▸ hp)
    have hne : label.position ≠ p := Nat.ne_of_gt (Nat.lt_of_le_of_lt hle (hahead j hj))
    exact ⟨(LabelTable.nameAt?_register_of_ne hne).trans hnone, j, hj, hle⟩
  · intro line hline
    obtain ⟨j, hj, hsame, hreaches⟩ := h.said line hline
    exact ⟨j, hj, hsame, fun other hother => (hreaches other hother).mono
      (fun _ hsome => LabelTable.nameAt?_register_of_some hsome label)
      fun hmissed => (LabelTable.register_missed walk.labels label).symm ▸ hmissed⟩

/-- The instruction that was passed last writes a line. -/
theorem line (h : walk.Labelled passed) {i : Instruction} {line : Line} (hi : i ∈ passed)
    (hposition : i.position = line.position)
    (hreaches : ∀ target, i.branchTarget? = some target → line.Reaches walk.labels target) :
    (walk.emit (.statement line)).Labelled passed := by
  constructor
  · exact h.keyed
  · exact h.ahead
  · exact h.behind
  · intro p
    show (walk.events.push _).toList.filter _ = _
    rw [Array.toList_push, List.filter_append, h.written]
    exact List.append_nil _
  · exact h.missed
  · intro other hother
    change Event.statement other ∈ (walk.events.push _).toList at hother
    rw [Array.toList_push, List.mem_append, List.mem_singleton] at hother
    rcases hother with hother | hother
    · exact h.said other hother
    · cases hother
      exact ⟨i, hi, hposition, hreaches⟩

/-- A jump finds the name of its target, misses it, or gives it a name. -/
theorem jump (h : walk.Labelled passed) {i : Instruction} (target : Nat) (hi : i ∈ passed)
    (hpassed : ∀ j ∈ passed, j.position ≤ i.position) :
    Labelled { walk with labels := (walk.labels.target target i.position).2 } passed ∧
      ((walk.labels.target target i.position).2.nameAt? target =
          some (walk.labels.target target i.position).1 ∨
        target ∈ (walk.labels.target target i.position).2.missed) := by
  rcases walk.labels.target_cases target i.position with
    ⟨name, hname, htarget⟩ | ⟨hnone, hbehind, htarget⟩ | ⟨hnone, hahead, htarget⟩
  · rw [htarget]
    exact ⟨h, Or.inl hname⟩
  · rw [htarget]
    constructor
    · exact h.miss hi hbehind hnone
    · exact Or.inr Std.TreeSet.mem_insert_self
  · rw [htarget]
    constructor
    · exact h.register _ fun j hj => Nat.lt_of_le_of_lt (hpassed j hj) hahead
    · exact Or.inl (LabelTable.nameAt?_register_self ⟨gotoLabelName target, target, .goto⟩ hnone)

/-- What an instruction says adds at most the label of a target that lies ahead. -/
theorem say (h : walk.Labelled passed) {i : Instruction} {said : Saying} (hi : i ∈ passed)
    (hpassed : ∀ j ∈ passed, j.position ≤ i.position) (hfits : Saying.Fits i said) :
    (walk.say i said).Labelled passed := by
  cases said with
  | silence => exact h
  | event e =>
      rcases hfits with ⟨line, rfl, hposition, htext⟩ | ⟨error, remark, rfl⟩
      · apply h.line hi hposition.symm
        intro target htarget
        exact (htext (by simp [htarget])).imp_right Or.inl
      · have hrecord := h.record #[.diagnostic i.position error remark] walk.blocks walk.previous
          (by simp [Event.isLabelWhere]) (by simp)
        simpa [Walk.record, resume, Walk.say, emit] using hrecord
  | goto lead target remark =>
      obtain ⟨hjump, hreaches⟩ := h.jump target hi hpassed
      apply hjump.line hi rfl
      intro other hother
      rw [hfits.1] at hother
      cases hother
      exact Or.inr (Or.inr ⟨lead, _, hfits.2, rfl, hreaches⟩)

/-- A step passes its instruction. -/
theorem follow (h : walk.Labelled passed) {i : Instruction} {outcome : Outcome} (hfits : outcome.Fits i)
    (hpassed : ∀ j ∈ passed, j.position < i.position) :
    (outcome.follow i walk).Labelled (passed ++ [i]) := by
  have hle : ∀ j ∈ passed ++ [i], j.position ≤ i.position := by
    intro j hj
    rcases List.mem_append.1 hj with hj | hj
    · exact Nat.le_of_lt (hpassed j hj)
    · exact List.mem_singleton.1 hj ▸ Nat.le_refl _
  apply ((h.writeLabel i).say (by simp) hle hfits.said).record
  · exact fun e he condition => Event.isLabelWhere_of_fromMarker (hfits.marks e he) condition
  · intro e he line heq
    have hmarker := hfits.marks e he
    rw [heq] at hmarker
    cases hmarker

/-- A step takes no name away and forgets no target that was missed. -/
theorem follow_mono (h : walk.Labelled passed) (i : Instruction) (outcome : Outcome) :
    (∀ p name, walk.labels.nameAt? p = some name →
      (outcome.follow i walk).labels.nameAt? p = some name) ∧
    ∀ p ∈ walk.labels.missed, p ∈ (outcome.follow i walk).labels.missed := by
  have hlabel := h.nameAt?_writeLabel i.position
  have hmissed := writeLabel_missed walk i.position
  unfold Outcome.follow Walk.record resume
  cases outcome.said with
  | silence => exact ⟨fun p name hname => (hlabel p).trans hname, fun p hp => hmissed ▸ hp⟩
  | event e => exact ⟨fun p name hname => (hlabel p).trans hname, fun p hp => hmissed ▸ hp⟩
  | goto lead target remark =>
      have hjump := (walk.writeLabel i.position).labels.target_mono target i.position
      exact ⟨fun p name hname => hjump.1 p name ((hlabel p).trans hname), fun p hp => hjump.2 p (hmissed ▸ hp)⟩

end Labelled

/-- What a step adds to the events comes after the label of its instruction. -/
theorem events_follow (walk : Walk) (i : Instruction) (outcome : Outcome) :
    (walk.writeLabel i.position).events.toList <+: (outcome.follow i walk).events.toList := by
  have hmarks : ∀ said : Walk, said.events.toList <+:
      ((said.resume outcome.blocks outcome.previous).record outcome.marks).events.toList :=
    fun said => ⟨outcome.marks.toList, by simp [Walk.record, resume]⟩
  refine List.IsPrefix.trans ?_ (hmarks _)
  cases outcome.said with
  | silence => exact List.prefix_refl _
  | event e => exact ⟨[e], by simp [say, emit]⟩
  | goto lead target remark => exact ⟨[_], (Array.toList_push ..).symm⟩

theorem emitted_follow (walk : Walk) (i : Instruction) (outcome : Outcome) :
    (outcome.follow i walk).labels.emitted = (walk.writeLabel i.position).labels.emitted := by
  unfold Outcome.follow Walk.record resume
  cases outcome.said with
  | silence => rfl
  | event e => rfl
  | goto lead target remark => exact LabelTable.target_emitted ..

theorem events_writeLabel (walk : Walk) (position : Nat) :
    walk.events.toList <+: (walk.writeLabel position).events.toList := by
  cases hpending : walk.labels.pending[position]? with
  | none =>
      simp only [writeLabel_of_none hpending, List.prefix_refl]
  | some label =>
      rw [writeLabel_of_some hpending]
      exact ⟨[.label label.name label.position], by simp [emit]⟩

/-- A label that a step has written stands right after what was there before. -/
theorem Labelled.emitted_follow {walk : Walk} {passed : List Instruction} (h : walk.Labelled passed)
    {i : Instruction} {outcome : Outcome} {p : Nat} {name : String}
    (hemitted : (outcome.follow i walk).labels.emitted[p]? = some name) :
    walk.labels.emitted[p]? = some name ∨
      i.position = p ∧ walk.events.toList ++ [.label name p] <+: (outcome.follow i walk).events.toList := by
  rw [Walk.emitted_follow] at hemitted
  cases hpending : walk.labels.pending[i.position]? with
  | none =>
      rw [writeLabel_of_none hpending] at hemitted
      exact Or.inl hemitted
  | some label =>
      have hevents := events_follow walk i outcome
      rw [writeLabel_of_some hpending] at hemitted hevents
      change (walk.labels.write i.position label).emitted[p]? = some name at hemitted
      rw [LabelTable.write_emitted] at hemitted
      split at hemitted
      · rename_i hsame
        cases hemitted
        refine Or.inr ⟨hsame, ?_⟩
        rw [h.keyed _ _ hpending, hsame] at hevents
        simpa [emit] using hevents
      · exact Or.inl hemitted

/-!
### The walk
-/

/-- Registering labels before the first instruction. -/
theorem Labelled.foldl_register {walk : Walk} (h : walk.Labelled []) (labels : List Label) :
    Labelled { walk with labels := labels.foldl LabelTable.register walk.labels } [] := by
  induction labels generalizing walk with
  | nil => exact h
  | cons label rest ih => exact ih (h.register label nofun)

/-- The labels that are known before the first instruction. -/
def stateLabels (setting : Setting) : List Label :=
  (setting.body.instructions.toList.flatMap fun i =>
    match i.token with
    | .labelTable entries => entries
    | _ => []).map fun entry => ⟨setting.words.symbols.nameText entry.name, entry.position.toNat, .state⟩

/-- The labels that are made up for the targets that were missed. -/
def seedLabels (seeds : List Nat) : List Label :=
  seeds.map fun position => ⟨gotoLabelName position, position, .goto⟩

/-- The labels that a walk starts with. -/
def firstLabels (setting : Setting) (seeds : List Nat) : LabelTable :=
  (stateLabels setting ++ seedLabels seeds).foldl LabelTable.register {}

theorem registerSeeds_labels (setting : Setting) (seeds : List Nat) :
    ((registerStates setting {}).registerSeeds seeds).labels = firstLabels setting seeds := by
  unfold firstLabels seedLabels
  rw [List.foldl_append, List.foldl_map]
  exact congrArg (fun table => seeds.foldl _ table) List.foldl_map.symm

/-- Before the first instruction only the labels hang on the seeds. -/
theorem prepare_eq (setting : Setting) :
    ∃ (blocks : Blocks) (marks : Array Event), (∀ e ∈ marks.toList, e.fromMarker = true) ∧
      ∀ seeds, prepare setting seeds =
        (resume { labels := firstLabels setting seeds } blocks none).record marks := by
  obtain ⟨next, marks, hmarks, hreconcile⟩ :=
    framed_reconcile 0 (queueDoLoops setting {}).blocks
  refine ⟨next, marks, hmarks, fun seeds => ?_⟩
  rw [← registerSeeds_labels]
  exact hreconcile _ rfl

theorem labelled_prepare (setting : Setting) (seeds : List Nat) : (prepare setting seeds).Labelled [] := by
  obtain ⟨blocks, marks, hmarks, hprepare⟩ := prepare_eq setting
  have hempty : Labelled {} [] := by
    constructor
    all_goals simp [LabelTable.Keyed]
  rw [hprepare]
  apply (hempty.foldl_register (stateLabels setting ++ seedLabels seeds)).record
  · exact fun e he condition => Event.isLabelWhere_of_fromMarker (hmarks e he) condition
  · intro e he line heq
    have hmarker := hmarks e he
    rw [heq] at hmarker
    cases hmarker

end Walk

namespace Setting

theorem walkTo_succ (setting : Setting) (seeds : List Nat) {count : Nat} {i : Instruction}
    (hi : setting.body.instructions.toList[count]? = some i) :
    setting.walkTo seeds (count + 1) = (setting.walkTo seeds count).step setting i count := by
  have htake : setting.body.instructions.toList.zipIdx.take (count + 1) =
      setting.body.instructions.toList.zipIdx.take count ++ [(i, count)] := by
    rw [List.take_add_one, List.getElem?_zipIdx, hi]
    simp
  unfold walkTo
  rw [htake, List.foldl_append]
  rfl

/-- The walk over all instructions, before it is ended. -/
def walkAll (setting : Setting) (seeds : List Nat) : Walk := setting.walkTo seeds setting.body.instructions.size

theorem walkTo_of_size_le (setting : Setting) (seeds : List Nat) {count : Nat}
    (h : setting.body.instructions.size ≤ count) : setting.walkTo seeds count = setting.walkAll seeds := by
  unfold walkAll walkTo
  rw [List.take_of_length_le (by simpa using h), List.take_of_length_le (by simp)]

theorem walkTo_succ_of_none (setting : Setting) (seeds : List Nat) {count : Nat}
    (h : setting.body.instructions.toList[count]? = none) :
    setting.walkTo seeds (count + 1) = setting.walkTo seeds count := by
  have hsize : setting.body.instructions.size ≤ count := List.getElem?_eq_none_iff.1 h
  rw [walkTo_of_size_le setting seeds hsize, walkTo_of_size_le setting seeds (Nat.le_succ_of_le hsize)]

variable {setting : Setting} (htiles : Tiles 0 0 setting.body.instructions.toList) (seeds : List Nat)

include htiles

theorem position_lt_of_mem_take {count : Nat} {i j : Instruction}
    (hi : setting.body.instructions.toList[count]? = some i)
    (hj : j ∈ setting.body.instructions.toList.take count) : j.position < i.position := by
  obtain ⟨index, hindex, rfl⟩ := List.mem_take_iff_getElem.1 hj
  obtain ⟨hcount, rfl⟩ := List.getElem?_eq_some_iff.1 hi
  have hordered := List.pairwise_iff_getElem.1 htiles.ordered index count (by omega) hcount (by omega)
  have hsize := (htiles.nonempty (List.getElem_mem (show index < _ by omega))).1
  unfold Instruction.endPosition at hordered
  omega

theorem labelled_walkTo (count : Nat) :
    (setting.walkTo seeds count).Labelled (setting.body.instructions.toList.take count) := by
  induction count with
  | zero => exact Walk.labelled_prepare setting seeds
  | succ count ih =>
      cases hi : setting.body.instructions.toList[count]? with
      | none =>
          have hsize : setting.body.instructions.size ≤ count := List.getElem?_eq_none_iff.1 hi
          rw [walkTo_succ_of_none setting seeds hi, List.take_of_length_le (Nat.le_succ_of_le hsize)]
          rwa [List.take_of_length_le hsize] at ih
      | some i =>
          obtain ⟨outcome, hfits, hfollow⟩ := Walk.exists_outcome setting i count
            (setting.walkTo seeds count).blocks (setting.walkTo seeds count).previous
          rw [walkTo_succ setting seeds hi, hfollow _ rfl rfl, List.take_add_one, hi]
          exact ih.follow hfits fun j hj => position_lt_of_mem_take htiles hi hj

theorem labelled_walkAll : (setting.walkAll seeds).Labelled setting.body.instructions.toList := by
  have hlabelled := labelled_walkTo htiles seeds setting.body.instructions.size
  rwa [List.take_of_length_le (by simp)] at hlabelled

/-- Names stay and missed targets stay missed. -/
theorem walkTo_mono {count later : Nat} (hle : count ≤ later) :
    (∀ p name, (setting.walkTo seeds count).labels.nameAt? p = some name →
      (setting.walkTo seeds later).labels.nameAt? p = some name) ∧
    ∀ p ∈ (setting.walkTo seeds count).labels.missed, p ∈ (setting.walkTo seeds later).labels.missed := by
  induction hle with
  | refl => exact ⟨fun _ _ hname => hname, fun _ hp => hp⟩
  | @step later _ ih =>
      cases hi : setting.body.instructions.toList[later]? with
      | none => rwa [walkTo_succ_of_none setting seeds hi]
      | some i =>
          obtain ⟨outcome, -, hfollow⟩ := Walk.exists_outcome setting i later
            (setting.walkTo seeds later).blocks (setting.walkTo seeds later).previous
          have hstep := (labelled_walkTo htiles seeds later).follow_mono i outcome
          rw [walkTo_succ setting seeds hi, hfollow _ rfl rfl]
          exact ⟨fun p name hname => hstep.1 p name (ih.1 p name hname), fun p hp => hstep.2 p (ih.2 p hp)⟩

/-- A label that was written stands right before what the instruction at its position adds. -/
theorem exists_index_of_emitted {count p : Nat} {name : String}
    (h : (setting.walkTo seeds count).labels.emitted[p]? = some name) :
    ∃ index i, setting.body.instructions.toList[index]? = some i ∧ i.position = p ∧
      (setting.walkTo seeds index).events.toList ++ [.label name p] <+:
        (setting.walkTo seeds count).events.toList := by
  induction count with
  | zero =>
      obtain ⟨i, hi, -⟩ := (Walk.labelled_prepare setting seeds).behind p name h
      cases hi
  | succ count ih =>
      cases hi : setting.body.instructions.toList[count]? with
      | none =>
          rw [walkTo_succ_of_none setting seeds hi] at h ⊢
          exact ih h
      | some i =>
          obtain ⟨outcome, -, hfollow⟩ := Walk.exists_outcome setting i count
            (setting.walkTo seeds count).blocks (setting.walkTo seeds count).previous
          rw [walkTo_succ setting seeds hi, hfollow _ rfl rfl] at h ⊢
          rcases (labelled_walkTo htiles seeds count).emitted_follow h with hold | ⟨hposition, hevents⟩
          · obtain ⟨index, j, hj, hposition, hevents⟩ := ih hold
            exact ⟨index, j, hj, hposition, hevents.trans
              ((Walk.events_writeLabel ..).trans (Walk.events_follow ..))⟩
          · exact ⟨count, i, hi, hposition, hevents⟩

end Setting

end ScriptBytecode
