/-
Module: ScriptBytecode.Proofs.Walk.LabelRuns
Purpose: Label tables over all runs. What a table holds after a run is told by the history of the run alone: the first
  registration of a position gives its label, a label that was taken is no longer there, and a target is missed if it
  was asked for from further on before it was ever registered. Main statement: the names, labels and positions that a
  run gives are those of its history.
Main exports: LabelOp, LabelTable.run, firstLabel, Taken, Missed, LabelTable.Follows, LabelTable.run_follows,
  labelTable_runs
-/
import ScriptBytecode.Proofs.Text.Numerals
import ScriptBytecode.Proofs.Walk.Labels

namespace ScriptBytecode

/-- What can be done with a label table. -/
inductive LabelOp where
  | register (label : Label)
  | goto (target origin : Nat)
  | take (position : Nat)
deriving Repr, Inhabited, DecidableEq

/-!
### Histories
-/

/-- The label that an operation registers at a position, if there is none yet. A `goto` registers a target that lies
    ahead. -/
def LabelOp.label? (p : Nat) : LabelOp → Option Label
  | .register label => if label.position = p then some label else none
  | .goto target origin =>
    if target = p ∧ origin < target then some ⟨gotoLabelName target, target, .goto⟩ else none
  | .take _ => none

/-- The label of the first registration of a position. -/
def firstLabel (ops : List LabelOp) (p : Nat) : Option Label := ops.findSome? (·.label? p)

/-- The label of a position was taken. -/
def Taken (ops : List LabelOp) (p : Nat) : Prop :=
  ∃ before after, ops = before ++ .take p :: after ∧ (firstLabel before p).isSome = true

/-- A position was the target of a `goto` from there or further on, and had never been registered then. -/
def Missed (ops : List LabelOp) (p : Nat) : Prop :=
  ∃ origin before after, ops = before ++ .goto p origin :: after ∧ p ≤ origin ∧ firstLabel before p = none

theorem firstLabel_append (ops later : List LabelOp) (p : Nat) :
    firstLabel (ops ++ later) p = (firstLabel ops p).or (firstLabel later p) :=
  List.findSome?_append

theorem firstLabel_append_of_some {ops : List LabelOp} {p : Nat} {label : Label} (h : firstLabel ops p = some label)
    (later : List LabelOp) : firstLabel (ops ++ later) p = some label := by
  rw [firstLabel_append, h, Option.some_or]

theorem firstLabel_singleton (op : LabelOp) (p : Nat) : firstLabel [op] p = op.label? p := by
  cases h : op.label? p <;> simp [firstLabel, h]

theorem position_of_firstLabel {ops : List LabelOp} {p : Nat} {label : Label} (h : firstLabel ops p = some label) :
    label.position = p := by
  obtain ⟨op, -, hop⟩ := List.exists_of_findSome?_eq_some h
  cases op with
  | register other =>
      obtain ⟨hposition, heq⟩ := Option.ite_none_right_eq_some.1 hop
      cases heq
      exact hposition
  | goto target origin =>
      obtain ⟨⟨htarget, -⟩, heq⟩ := Option.ite_none_right_eq_some.1 hop
      cases heq
      exact htarget
  | take position => cases hop

theorem Taken.isSome_firstLabel {ops : List LabelOp} {p : Nat} (h : Taken ops p) :
    (firstLabel ops p).isSome = true := by
  obtain ⟨before, after, rfl, hbefore⟩ := h
  obtain ⟨label, hlabel⟩ := Option.isSome_iff_exists.1 hbefore
  rw [firstLabel_append_of_some hlabel]
  rfl

/-- An operation of a longer history is one of the shorter history, or the last one. -/
theorem exists_split_concat {ops : List LabelOp} {op last : LabelOp} {P : List LabelOp → Prop} :
    (∃ before after, ops ++ [last] = before ++ op :: after ∧ P before) ↔
      (∃ before after, ops = before ++ op :: after ∧ P before) ∨ last = op ∧ P ops := by
  constructor
  · rintro ⟨before, after, heq, hbefore⟩
    rcases List.eq_nil_or_concat after with rfl | ⟨between, final, rfl⟩
    · obtain ⟨rfl, rfl⟩ := List.append_singleton_inj.1 heq
      exact .inr ⟨rfl, hbefore⟩
    · rw [List.concat_eq_append, ← List.cons_append, ← List.append_assoc] at heq
      exact .inl ⟨before, between, (List.append_singleton_inj.1 heq).1, hbefore⟩
  · rintro (⟨before, after, rfl, hbefore⟩ | ⟨rfl, hops⟩)
    · exact ⟨before, after ++ [last], by simp, hbefore⟩
    · exact ⟨ops, [], rfl, hops⟩

theorem taken_concat {ops : List LabelOp} {op : LabelOp} {p : Nat} :
    Taken (ops ++ [op]) p ↔ Taken ops p ∨ op = .take p ∧ (firstLabel ops p).isSome = true :=
  exists_split_concat

theorem missed_concat {ops : List LabelOp} {op : LabelOp} {p : Nat} :
    Missed (ops ++ [op]) p ↔
      Missed ops p ∨ ∃ origin, op = .goto p origin ∧ p ≤ origin ∧ firstLabel ops p = none :=
  (exists_congr fun _ => exists_split_concat).trans exists_or

namespace LabelTable

/-!
### One operation
-/

/-- Does one thing with a table. -/
def step (table : LabelTable) : LabelOp → LabelTable
  | .register label => table.register label
  | .goto target origin => (table.target target origin).2
  | .take position => (table.take position).2

/-- A label waits for its position from its registration, unless there is a label already, until it is taken. -/
theorem step_pending (table : LabelTable) (op : LabelOp) (p : Nat) :
    (table.step op).pending[p]? =
      if op = .take p then none else if table.nameAt? p = none then op.label? p else table.pending[p]? := by
  cases op with
  | register label =>
      rw [if_neg (by simp), step, register_pending]
      by_cases hname : table.nameAt? p = none
      · simp [hname, LabelOp.label?, (nameAt?_eq_none.1 hname).2]
      · simp [hname]
  | goto target origin =>
      rw [if_neg (by simp), step]
      by_cases hp : table.nameAt? p = none
      · have hpending := (nameAt?_eq_none.1 hp).2
        rw [if_pos hp, LabelOp.label?]
        rcases table.target_cases target origin with ⟨name, hname, htarget⟩ | ⟨-, hbehind, htarget⟩ |
          ⟨-, hahead, htarget⟩
        · have hne : target ≠ p := by
            rintro rfl
            rw [hp] at hname
            cases hname
          simp [htarget, hpending, hne]
        · simp [htarget, hpending, Nat.not_lt.2 hbehind]
        · simp [htarget, register_pending, hpending, hp, hahead]
      · rw [if_neg hp]
        rcases table.target_cases target origin with ⟨name, -, htarget⟩ | ⟨-, -, htarget⟩ | ⟨-, -, htarget⟩
        · rw [htarget]
        · rw [htarget]
        · simp [htarget, register_pending, hp]
  | take position =>
      rw [step]
      by_cases hposition : position = p
      · subst hposition
        cases hpending : table.pending[position]? with
        | none => simp [take_of_none hpending, hpending]
        | some label => simp [take_of_some hpending, write_pending]
      · have hother : ((table.take position).2).pending[p]? = table.pending[p]? := by
          cases hpending : table.pending[position]? with
          | none => rw [take_of_none hpending]
          | some label => rw [take_of_some hpending, write_pending, if_neg hposition]
        rw [hother, if_neg (by simpa using hposition), LabelOp.label?]
        split
        · rename_i hname
          exact (nameAt?_eq_none.1 hname).2
        · rfl

theorem step_emitted (table : LabelTable) (op : LabelOp) (p : Nat) :
    (table.step op).emitted[p]? =
      if op = .take p then (table.pending[p]?.map (·.name)).or table.emitted[p]? else table.emitted[p]? := by
  cases op with
  | register label => rw [if_neg (by simp), step, register_emitted]
  | goto target origin => rw [if_neg (by simp), step, target_emitted]
  | take position =>
      rw [step]
      cases hpending : table.pending[position]? with
      | none =>
          rw [take_of_none hpending]
          split
          · rename_i heq
            cases heq
            rw [hpending]
            rfl
          · rfl
      | some label =>
          rw [take_of_some hpending, write_emitted]
          by_cases hposition : position = p
          · subst hposition
            simp [hpending]
          · simp [hposition]

theorem mem_step_missed (table : LabelTable) (op : LabelOp) (p : Nat) :
    p ∈ (table.step op).missed ↔
      p ∈ table.missed ∨ ∃ origin, op = .goto p origin ∧ p ≤ origin ∧ table.nameAt? p = none := by
  cases op with
  | register label => simp [step, register_missed]
  | goto target origin =>
      rw [step]
      rcases table.target_cases target origin with ⟨name, hname, htarget⟩ | ⟨hname, hbehind, htarget⟩ |
        ⟨hname, hahead, htarget⟩
      · rw [htarget]
        refine ⟨.inl, ?_⟩
        rintro (hmem | ⟨_, heq, -, hnone⟩)
        · exact hmem
        · cases heq
          rw [hname] at hnone
          cases hnone
      · rw [htarget, Std.TreeSet.mem_insert]
        constructor
        · rintro (heq | hmem)
          · obtain rfl := Nat.compare_eq_eq.1 heq
            exact .inr ⟨origin, rfl, hbehind, hname⟩
          · exact .inl hmem
        · rintro (hmem | ⟨_, heq, -⟩)
          · exact .inr hmem
          · cases heq
            exact .inl (Nat.compare_eq_eq.2 rfl)
      · rw [htarget, register_missed]
        refine ⟨.inl, ?_⟩
        rintro (hmem | ⟨_, heq, hbehind, -⟩)
        · exact hmem
        · cases heq
          exact absurd hbehind (Nat.not_le.2 hahead)
  | take position =>
      rw [step]
      cases hpending : table.pending[position]? with
      | none => simp [take_of_none hpending]
      | some label => simp [take_of_some hpending, write]

/-!
### Runs
-/

/-- What a table holds about a position is what a history says: nothing before the first registration, then its label
    until it is taken, and its name from then on. -/
inductive Recalls (table : LabelTable) (ops : List LabelOp) (p : Nat) : Prop where
  | fresh (hfirst : firstLabel ops p = none) (hpending : table.pending[p]? = none) (hemitted : table.emitted[p]? = none)
  | waiting (label : Label) (hfirst : firstLabel ops p = some label) (htaken : ¬ Taken ops p)
      (hpending : table.pending[p]? = some label) (hemitted : table.emitted[p]? = none)
  | written (label : Label) (hfirst : firstLabel ops p = some label) (htaken : Taken ops p)
      (hpending : table.pending[p]? = none) (hemitted : table.emitted[p]? = some label.name)

theorem Recalls.nameAt? {table : LabelTable} {ops : List LabelOp} {p : Nat} (h : table.Recalls ops p) :
    table.nameAt? p = (firstLabel ops p).map (·.name) := by
  cases h with
  | fresh hfirst hpending hemitted => simp [LabelTable.nameAt?, hfirst, hpending, hemitted]
  | waiting label hfirst _ hpending hemitted => simp [LabelTable.nameAt?, hfirst, hpending, hemitted]
  | written label hfirst _ hpending hemitted => simp [LabelTable.nameAt?, hfirst, hpending, hemitted]

/-- One more operation is one more in the history. -/
theorem Recalls.step {table : LabelTable} {ops : List LabelOp} {p : Nat} (h : table.Recalls ops p) (op : LabelOp) :
    (table.step op).Recalls (ops ++ [op]) p := by
  have hname := h.nameAt?
  have hpending' := table.step_pending op p
  have hemitted' := table.step_emitted op p
  cases h with
  | fresh hfirst hpending hemitted =>
      have hlabel : firstLabel (ops ++ [op]) p = op.label? p := by
        rw [firstLabel_append, hfirst, Option.none_or, firstLabel_singleton]
      have huntaken : ¬ Taken (ops ++ [op]) p := by
        rw [taken_concat, hfirst]
        rintro (htaken | ⟨-, hsome⟩)
        · have hsome := htaken.isSome_firstLabel
          rw [hfirst] at hsome
          cases hsome
        · cases hsome
      rw [hfirst, Option.map_none] at hname
      rw [hpending, hemitted] at hemitted'
      by_cases hop : op = .take p
      · rw [if_pos hop] at hpending' hemitted'
        rw [hop] at hlabel
        exact .fresh (by rw [hop, hlabel]; rfl) hpending' hemitted'
      · rw [if_neg hop, if_pos hname] at hpending'
        rw [if_neg hop] at hemitted'
        cases hregisters : op.label? p with
        | none => exact .fresh (hlabel.trans hregisters) (hpending'.trans hregisters) hemitted'
        | some label => exact .waiting label (hlabel.trans hregisters) huntaken (hpending'.trans hregisters) hemitted'
  | waiting label hfirst htaken hpending hemitted =>
      rw [hpending, hemitted] at hemitted'
      have hfirst' := firstLabel_append_of_some hfirst [op]
      by_cases hop : op = .take p
      · rw [if_pos hop] at hpending' hemitted'
        exact .written label hfirst' (taken_concat.2 (.inr ⟨hop, by rw [hfirst]; rfl⟩)) hpending' hemitted'
      · rw [if_neg hop, hname, hfirst, if_neg (by simp), hpending] at hpending'
        rw [if_neg hop] at hemitted'
        exact .waiting label hfirst' (by rw [taken_concat]; simp [htaken, hop]) hpending' hemitted'
  | written label hfirst htaken hpending hemitted =>
      rw [hpending, hemitted] at hemitted'
      rw [hname, hfirst, if_neg (by simp : ¬ (some label).map (·.name) = none), hpending, ite_self] at hpending'
      rw [Option.map_none, Option.none_or, ite_self] at hemitted'
      exact .written label (firstLabel_append_of_some hfirst [op]) (taken_concat.2 (.inl htaken)) hpending' hemitted'

/-- The table holds what a history says. -/
structure Follows (table : LabelTable) (ops : List LabelOp) : Prop where
  recalls : ∀ p, table.Recalls ops p
  missed : ∀ p, p ∈ table.missed ↔ Missed ops p

theorem Follows.step {table : LabelTable} {ops : List LabelOp} (h : table.Follows ops) (op : LabelOp) :
    (table.step op).Follows (ops ++ [op]) where
  recalls p := (h.recalls p).step op
  missed p := by
    rw [mem_step_missed, missed_concat, h.missed, (h.recalls p).nameAt?, Option.map_eq_none_iff]

theorem Follows.new : ({} : LabelTable).Follows [] where
  recalls p := .fresh rfl (by simp) (by simp)
  missed p := by simp [Missed]

/-- Does one thing after the other with a new table. -/
def run (ops : List LabelOp) : LabelTable := ops.foldl step {}

/-- After a run the table holds what the history of the run says. -/
theorem run_follows (ops : List LabelOp) : (run ops).Follows ops := by
  have hfrom : ∀ (later before : List LabelOp) (table : LabelTable), table.Follows before →
      (later.foldl LabelTable.step table).Follows (before ++ later) := by
    intro later
    induction later with
    | nil =>
        intro before table h
        rwa [List.append_nil]
    | cons op later ih =>
        intro before table h
        rw [List.foldl_cons, List.append_cons]
        exact ih _ _ (h.step op)
  exact hfrom ops [] {} .new

/-!
### Answers
-/

theorem take_fst (table : LabelTable) (p : Nat) : (table.take p).1 = table.pending[p]? := by
  cases hpending : table.pending[p]? with
  | none => rw [take_of_none hpending]
  | some label => rw [take_of_some hpending]

theorem mem_drain {table : LabelTable} {label : Label} :
    label ∈ table.drain.1 ↔ ∃ p : Nat, table.pending[p]? = some label := by
  rw [drain, values_eq_map_toList, List.mem_map]
  constructor
  · rintro ⟨⟨p, found⟩, hentry, rfl⟩
    exact ⟨p, Std.TreeMap.mem_toList_iff_getElem?_eq_some.1 hentry⟩
  · rintro ⟨p, hp⟩
    exact ⟨(p, label), Std.TreeMap.mem_toList_iff_getElem?_eq_some.2 hp, rfl⟩

/-- Labels that are kept by their positions are drained in the order of the positions. -/
theorem Keyed.drain_sorted {table : LabelTable} (h : table.Keyed) :
    (table.drain.1.map (·.position)).Pairwise (· < ·) := by
  have hpositions : table.drain.1.map (·.position) = table.pending.toList.map (·.1) := by
    rw [drain, values_eq_map_toList, List.map_map]
    apply List.map_congr_left
    intro entry hentry
    exact h entry.1 entry.2 (Std.TreeMap.mem_toList_iff_getElem?_eq_some.1 hentry)
  rw [hpositions, List.pairwise_map]
  exact Std.TreeMap.ordered_keys_toList.imp Nat.compare_eq_lt.1

namespace Follows

variable {table : LabelTable} {ops : List LabelOp}

theorem pending_iff (h : table.Follows ops) {p : Nat} {label : Label} :
    table.pending[p]? = some label ↔ firstLabel ops p = some label ∧ ¬ Taken ops p := by
  cases h.recalls p with
  | fresh hfirst hpending hemitted => simp [hfirst, hpending]
  | waiting _ hfirst htaken hpending hemitted => simp [hfirst, hpending, htaken]
  | written _ hfirst htaken hpending hemitted => simp [hpending, htaken]

theorem keyed (h : table.Follows ops) : table.Keyed :=
  fun _ _ hpending => position_of_firstLabel (h.pending_iff.1 hpending).1

theorem disjoint (h : table.Follows ops) (p : Nat) : ¬ (p ∈ table.pending ∧ p ∈ table.emitted) := by
  rw [Std.TreeMap.mem_iff_isSome_getElem?, Std.TreeMap.mem_iff_isSome_getElem?]
  cases h.recalls p with
  | fresh _ hpending _ => simp [hpending]
  | waiting _ _ _ _ hemitted => simp [hemitted]
  | written _ _ _ hpending _ => simp [hpending]

theorem held_iff (h : table.Follows ops) (p : Nat) :
    p ∈ table.pending ∨ p ∈ table.emitted ↔ (firstLabel ops p).isSome = true := by
  rw [Std.TreeMap.mem_iff_isSome_getElem?, Std.TreeMap.mem_iff_isSome_getElem?]
  cases h.recalls p with
  | fresh hfirst hpending hemitted => simp [hfirst, hpending, hemitted]
  | waiting _ hfirst _ hpending _ => simp [hfirst, hpending]
  | written _ hfirst _ _ hemitted => simp [hfirst, hemitted]

theorem mem_drain_iff (h : table.Follows ops) {p : Nat} {label : Label} :
    label ∈ table.drain.1 ∧ label.position = p ↔ firstLabel ops p = some label ∧ ¬ Taken ops p := by
  rw [mem_drain, ← h.pending_iff]
  constructor
  · rintro ⟨⟨q, hq⟩, rfl⟩
    rwa [h.keyed q label hq]
  · intro hpending
    exact ⟨⟨p, hpending⟩, h.keyed p label hpending⟩

end Follows

end LabelTable

theorem gotoLabelName_injective {p q : Nat} (h : gotoLabelName p = gotoLabelName q) : p = q := by
  have hdigits : Text.hexUpper 4 p = Text.hexUpper 4 q := by
    apply String.toList_inj.1
    have hchars := congrArg String.toList h
    rw [gotoLabelName, gotoLabelName, String.toList_append, String.toList_append] at hchars
    exact List.append_cancel_left hchars
  exact Text.hexUpper_injective hdigits

open LabelTable in
/-- What a run of operations on a new table gives, by its history. -/
structure LabelRun (ops : List LabelOp) : Prop where
  /-- No position waits for its label and has it written. -/
  disjoint : ∀ p, ¬ (p ∈ (run ops).pending ∧ p ∈ (run ops).emitted)
  /-- A position has a label, waiting or written, if and only if it was registered. -/
  held : ∀ p, p ∈ (run ops).pending ∨ p ∈ (run ops).emitted ↔ (firstLabel ops p).isSome = true
  /-- The label of a position is taken once at most. -/
  once : ∀ p label, ((run ops).take p).1 = some label → ∀ later, ((run (ops ++ .take p :: later)).take p).1 = none
  /-- From its first registration on, every `goto` to a position is given the name of the label that was registered
      first, and this label is the one that is taken. -/
  names : ∀ p label, firstLabel ops p = some label → ∀ later,
    (∀ origin, ((run (ops ++ later)).target p origin).1 = label.name) ∧
      ∀ taken, ((run (ops ++ later)).take p).1 = some taken → taken = label
  /-- A `goto` that registers its target is given the name of the label that it registers. -/
  made : ∀ p origin, firstLabel ops p = none → origin < p → ∃ label,
    firstLabel (ops ++ [.goto p origin]) p = some label ∧ ((run ops).target p origin).1 = label.name
  /-- A position is missed if and only if a `goto` from there or further on had it as its target before it was ever
      registered. -/
  missed : ∀ p, p ∈ (run ops).missed ↔ Missed ops p
  /-- What is drained are the labels that were registered first and never taken. -/
  drained : ∀ p label, label ∈ (run ops).drain.1 ∧ label.position = p ↔ firstLabel ops p = some label ∧ ¬ Taken ops p
  /-- They are drained by increasing position, each position once. -/
  sorted : ((run ops).drain.1.map (·.position)).Pairwise (· < ·)

open LabelTable in
/-- Every run of operations on a new label table gives what its history says, and no two positions share the name that
    is made up for a jump target. -/
theorem labelTable_runs :
    (∀ ops : List LabelOp, LabelRun ops) ∧ ∀ p q : Nat, gotoLabelName p = gotoLabelName q → p = q := by
  constructor
  · intro ops
    have hfollows := run_follows ops
    constructor
    · exact hfollows.disjoint
    · exact hfollows.held_iff
    · intro p label htake later
      rw [take_fst] at htake ⊢
      have hfirst := (hfollows.pending_iff.1 htake).1
      have htaken : Taken (ops ++ .take p :: later) p := ⟨ops, later, rfl, by rw [hfirst]; rfl⟩
      rw [Option.eq_none_iff_forall_ne_some]
      exact fun other hother => ((run_follows _).pending_iff.1 hother).2 htaken
    · intro p label hfirst later
      have hfollows' := run_follows (ops ++ later)
      have hfirst' := firstLabel_append_of_some hfirst later
      constructor
      · intro origin
        have hname := (hfollows'.recalls p).nameAt?
        rw [hfirst'] at hname
        rw [target_of_name hname]
      · intro taken htake
        rw [take_fst] at htake
        exact Option.some.inj ((hfollows'.pending_iff.1 htake).1.symm.trans hfirst')
    · intro p origin hfirst hahead
      have hname := (hfollows.recalls p).nameAt?
      rw [hfirst] at hname
      refine ⟨⟨gotoLabelName p, p, .goto⟩, ?_, ?_⟩
      · rw [firstLabel_append, hfirst, Option.none_or, firstLabel_singleton]
        exact if_pos ⟨rfl, hahead⟩
      · rw [target_of_ahead hname hahead]
    · exact hfollows.missed
    · exact fun p label => hfollows.mem_drain_iff
    · exact hfollows.keyed.drain_sorted
  · exact fun p q => gotoLabelName_injective

/-- A label of a state, a `goto` to it, and a `goto` back to where no label is. -/
def stateOps : List LabelOp := [.register ⟨"Begin", 8, .state⟩, .goto 8 2, .goto 3 9]

theorem labelTable_runs_stateOps :
    (firstLabel stateOps 8 = some ⟨"Begin", 8, .state⟩ ∧
      ∀ later origin, ((LabelTable.run (stateOps ++ later)).target 8 origin).1 = "Begin") ∧
    Missed stateOps 3 ∧ 3 ∈ (LabelTable.run stateOps).missed := by
  have hrun := labelTable_runs.1 stateOps
  have hfirst : firstLabel stateOps 8 = some ⟨"Begin", 8, .state⟩ := rfl
  have hmissed : Missed stateOps 3 := ⟨9, stateOps.take 2, [], rfl, by decide, rfl⟩
  exact ⟨⟨hfirst, fun later => (hrun.names 8 _ hfirst later).1⟩, hmissed, (hrun.missed 3).2 hmissed⟩

end ScriptBytecode
