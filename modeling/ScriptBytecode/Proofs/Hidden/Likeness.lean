/-
Module: ScriptBytecode.Proofs.Hidden.Likeness
Purpose: Walks over code with hidden instructions and over what is left of it. Two walks are alike if their blocks
  differ in the positions alone, their labels stand at the same places, and their events are the same but for
  positions and for the names that are made up from positions. Everything that a walk does keeps such walks alike.
Main exports: NamesAlike, Event.Alike, LabelTable.Alike, Walk.Alike, Walk.Alike.reconcile, Walk.Alike.write,
  Walk.alike_queueDoLoops
-/
import ScriptBytecode.Proofs.Hidden.Decisions
import ScriptBytecode.Proofs.Walk.Rerun

namespace ScriptBytecode

/-- Names of one place before positions have moved and after it: the same name, or two that are made up from its
    positions. -/
def NamesAlike (f : Nat → Nat) (p : Nat) (name name' : String) : Prop :=
  name' = name ∨ (name = gotoLabelName p ∧ name' = gotoLabelName (f p))

/-- Events that are the same but for positions and for made-up names. -/
inductive Event.Alike (f : Nat → Nat) : Event → Event → Prop where
  | mark {e : Event} (h : e.fromMarker = true) : Event.Alike f e (e.relocate f)
  | label {p : Nat} {name name' : String} (h : NamesAlike f p name name') :
      Event.Alike f (.label name p) (.label name' (f p))
  | line (line : Line) : Event.Alike f (.statement line) (.statement { line with position := f line.position })
  | goto {p : Nat} {name name' : String} (h : NamesAlike f p name name') (i i' : Instruction) (lead : String)
      (remark : Option String) :
      Event.Alike f (.statement (Walk.gotoLine i lead name remark)) (.statement (Walk.gotoLine i' lead name' remark))
  | diagnostic (p : Nat) (error : RenderError) (remark : Option String) :
      Event.Alike f (.diagnostic p error remark) (.diagnostic (f p) error remark)

/-!
### Labels
-/

/-- The body is what is left of the code of a setting that tolerates its hidden instructions. -/
structure Setting.ThinsTo (setting : Setting) (body' : Body) : Prop where
  strips : setting.body.StripsTo body'
  regular : setting.body.Regular
  landed : setting.body.Landed
  tolerant : setting.Tolerant

theorem Setting.ThinsTo.thins {setting : Setting} {body' : Body} (h : setting.ThinsTo body') :
    setting.body.ThinsTo body' :=
  ⟨h.strips, h.regular, h.landed, h.tolerant.loops, h.tolerant.cases⟩

/-- A place that the code leads to and that has a label in the source. -/
def Setting.Place (setting : Setting) (p : Nat) : Prop := setting.body.Landing p ∧ p ∈ setting.labelPlaces

/-- Labels fall together only if they are the same. -/
theorem Setting.Tolerant.placesApart {setting : Setting} (h : setting.Tolerant) {p q : Nat} (hp : setting.Place p)
    (hq : setting.Place q) : setting.body.Apart p q :=
  (h.labels p hp.2).2 q hq.2

namespace LabelTable

/-- Labels that stand at the same places, all of which are places of the source. -/
structure Alike (setting : Setting) (table table' : LabelTable) : Prop where
  keyed : table.Keyed
  keyed' : table'.Keyed
  places : ∀ p, table.nameAt? p ≠ none → setting.Place p
  places' : ∀ q, table'.nameAt? q ≠ none → ∃ p, setting.Place p ∧ setting.body.compact p = q
  pending : ∀ p, setting.Place p →
    Option.Rel (fun label label' => NamesAlike setting.body.compact p label.name label'.name) table.pending[p]?
      table'.pending[setting.body.compact p]?
  emitted : ∀ p, setting.Place p →
    Option.Rel (NamesAlike setting.body.compact p) table.emitted[p]? table'.emitted[setting.body.compact p]?
  missed : ∀ p ∈ table.missed, setting.Place p
  missed' : ∀ q, q ∈ table'.missed ↔ ∃ p ∈ table.missed, setting.body.compact p = q

variable {setting : Setting} {table table' : LabelTable} {p : Nat}

/-- A place has a name in both tables or in none. -/
theorem Alike.nameAt? (h : table.Alike setting table') (hp : setting.Place p) :
    Option.Rel (NamesAlike setting.body.compact p) (table.nameAt? p) (table'.nameAt? (setting.body.compact p)) := by
  have hemitted := h.emitted p hp
  have hpending := h.pending p hp
  unfold LabelTable.nameAt?
  generalize table.emitted[p]? = written at hemitted
  generalize table'.emitted[setting.body.compact p]? = written' at hemitted
  generalize table.pending[p]? = waiting at hpending
  generalize table'.pending[setting.body.compact p]? = waiting' at hpending
  cases hemitted with
  | some hnames => exact .some hnames
  | none =>
      cases hpending with
      | some hnames => exact .some hnames
      | none => exact .none

section

variable (htolerant : setting.Tolerant)

include htolerant

/-- Both tables register a label at the same place. -/
theorem Alike.register (h : table.Alike setting table') {label label' : Label} (hp : setting.Place label.position)
    (hposition : label'.position = setting.body.compact label.position)
    (hnames : NamesAlike setting.body.compact label.position label.name label'.name) :
    Alike setting (table.register label) (table'.register label') where
  keyed q other hother := by
    rw [register_pending] at hother
    split at hother
    · rename_i hnew
      cases hother
      exact hnew.1
    · exact h.keyed q other hother
  keyed' q other hother := by
    rw [register_pending] at hother
    split at hother
    · rename_i hnew
      cases hother
      exact hnew.1
    · exact h.keyed' q other hother
  places q hq := by
    by_cases hsame : label.position = q
    · exact hsame ▸ hp
    · rw [nameAt?_register_of_ne hsame] at hq
      exact h.places q hq
  places' q hq := by
    by_cases hsame : label'.position = q
    · exact ⟨label.position, hp, hposition.symm.trans hsame⟩
    · rw [nameAt?_register_of_ne hsame] at hq
      exact h.places' q hq
  pending q hq := by
    have hname := h.nameAt? hq
    have hsame : setting.body.compact label.position = setting.body.compact q ↔ label.position = q :=
      ⟨htolerant.placesApart hp hq, fun heq => heq ▸ rfl⟩
    have hnone : table'.nameAt? (setting.body.compact q) = none ↔ table.nameAt? q = none := by
      generalize table.nameAt? q = known at hname
      generalize table'.nameAt? (setting.body.compact q) = known' at hname
      cases hname <;> simp
    rw [register_pending, register_pending, hposition]
    simp only [hsame, hnone]
    split
    · rename_i hnew
      exact .some (hnew.1 ▸ hnames)
    · exact h.pending q hq
  emitted q hq := by
    rw [register_emitted, register_emitted]
    exact h.emitted q hq
  missed := by
    rw [register_missed]
    exact h.missed
  missed' := by
    rw [register_missed, register_missed]
    exact h.missed'

/-- Both tables write the label of the same place. -/
theorem Alike.write (h : table.Alike setting table') (hp : setting.Place p) {label label' : Label}
    (hnames : NamesAlike setting.body.compact p label.name label'.name) :
    Alike setting (table.write p label) (table'.write (setting.body.compact p) label') where
  keyed q other hother := by
    rw [write_pending] at hother
    split at hother
    · cases hother
    · exact h.keyed q other hother
  keyed' q other hother := by
    rw [write_pending] at hother
    split at hother
    · cases hother
    · exact h.keyed' q other hother
  places q hq := by
    by_cases hsame : p = q
    · exact hsame ▸ hp
    · rw [LabelTable.nameAt?, write_pending, write_emitted, if_neg hsame, if_neg hsame] at hq
      exact h.places q hq
  places' q hq := by
    by_cases hsame : setting.body.compact p = q
    · exact ⟨p, hp, hsame⟩
    · rw [LabelTable.nameAt?, write_pending, write_emitted, if_neg hsame, if_neg hsame] at hq
      exact h.places' q hq
  pending q hq := by
    have hsame : setting.body.compact p = setting.body.compact q ↔ p = q :=
      ⟨htolerant.placesApart hp hq, fun heq => heq ▸ rfl⟩
    rw [write_pending, write_pending]
    simp only [hsame]
    split
    · exact .none
    · exact h.pending q hq
  emitted q hq := by
    have hsame : setting.body.compact p = setting.body.compact q ↔ p = q :=
      ⟨htolerant.placesApart hp hq, fun heq => heq ▸ rfl⟩
    rw [write_emitted, write_emitted]
    simp only [hsame]
    split
    · rename_i heq
      exact .some (heq ▸ hnames)
    · exact h.emitted q hq
  missed := h.missed
  missed' := h.missed'

omit htolerant in
/-- Both tables miss the same place. -/
theorem Alike.miss (h : table.Alike setting table') (hp : setting.Place p) :
    Alike setting { table with missed := table.missed.insert p }
      { table' with missed := table'.missed.insert (setting.body.compact p) } where
  keyed := h.keyed
  keyed' := h.keyed'
  places := h.places
  places' := h.places'
  pending := h.pending
  emitted := h.emitted
  missed q hq := by
    rcases Std.TreeSet.mem_insert.1 hq with hsame | hq
    · exact Std.compare_eq_iff_eq.1 hsame ▸ hp
    · exact h.missed q hq
  missed' q := by
    simp only [Std.TreeSet.mem_insert, Std.compare_eq_iff_eq, h.missed']
    constructor
    · rintro (rfl | ⟨r, hr, rfl⟩)
      · exact ⟨p, Or.inl rfl, rfl⟩
      · exact ⟨r, Or.inr hr, rfl⟩
    · rintro ⟨r, rfl | hr, rfl⟩
      · exact Or.inl rfl
      · exact Or.inr ⟨r, hr, rfl⟩

/-- A `goto` to the same place has the same name, or names that are made up alike. -/
theorem Alike.target (h : table.Alike setting table') (hp : setting.Place p) {origin origin' : Nat}
    (horigin : setting.body.compact p ≤ origin' ↔ p ≤ origin) :
    NamesAlike setting.body.compact p (table.target p origin).1 (table'.target (setting.body.compact p) origin').1 ∧
      Alike setting (table.target p origin).2 (table'.target (setting.body.compact p) origin').2 := by
  have hname := h.nameAt? hp
  rcases table.target_cases p origin with ⟨name, hsome, htarget⟩ | ⟨hnone, hbehind, htarget⟩ | ⟨hnone, hahead, htarget⟩
  · rw [hsome] at hname
    generalize hsome' : table'.nameAt? (setting.body.compact p) = known' at hname
    obtain hnames | - := hname
    rw [htarget, target_of_name hsome']
    exact ⟨hnames, h⟩
  · rw [hnone] at hname
    generalize hnone' : table'.nameAt? (setting.body.compact p) = known' at hname
    obtain - | - := hname
    rw [htarget, target_of_behind hnone' (horigin.2 hbehind)]
    exact ⟨Or.inr ⟨rfl, rfl⟩, h.miss hp⟩
  · rw [hnone] at hname
    generalize hnone' : table'.nameAt? (setting.body.compact p) = known' at hname
    obtain - | - := hname
    have hahead' : origin' < setting.body.compact p := Nat.lt_of_not_le fun hle => by
      have hbehind := horigin.1 hle
      omega
    rw [htarget, target_of_ahead hnone' hahead']
    exact ⟨Or.inr ⟨rfl, rfl⟩, h.register htolerant hp rfl (Or.inr ⟨rfl, rfl⟩)⟩

end

end LabelTable

/-!
### Walks
-/

namespace Walk

/-- Walks that have come to the same, but for positions and for names that are made up from them. -/
structure Alike (setting : Setting) (walk walk' : Walk) : Prop where
  blocks : walk'.blocks = walk.blocks.relocate setting.body.compact
  previous : walk'.previous = walk.previous
  events : List.Forall₂ (Event.Alike setting.body.compact) walk.events.toList walk'.events.toList
  labels : walk.labels.Alike setting walk'.labels

namespace Alike

variable {setting : Setting} {walk walk' : Walk}

theorem emit (h : walk.Alike setting walk') {e e' : Event} (he : e.Alike setting.body.compact e') :
    (walk.emit e).Alike setting (walk'.emit e') where
  blocks := h.blocks
  previous := h.previous
  events := by
    simp only [Walk.emit, Array.toList_push]
    exact List.rel_append h.events (.cons he .nil)
  labels := h.labels

/-- The same blocks, but for the positions, take the place of what there was. -/
theorem requeue (h : walk.Alike setting walk') (blocks : Blocks) :
    Alike setting { walk with blocks } { walk' with blocks := blocks.relocate setting.body.compact } where
  blocks := rfl
  previous := h.previous
  events := h.events
  labels := h.labels

/-- An operation that reads the blocks alone keeps walks alike, if it does so for a walk that has been moved. -/
theorem framed {op op' : Walk → Walk} (hop : Framed op) (hop' : Framed op') (h : walk.Alike setting walk')
    (hmoved : op' (walk.relocate setting.body.compact) = (op walk).relocate setting.body.compact) :
    (op walk).Alike setting (op' walk') := by
  obtain ⟨next, new, hnew, heq⟩ := hop walk.blocks
  obtain ⟨next', new', -, heq'⟩ := hop' walk'.blocks
  rw [heq walk rfl, heq' _ h.blocks.symm] at hmoved
  have hblocks : next' = next.relocate setting.body.compact := congrArg (·.blocks) hmoved
  have hevents : new' = new.map (·.relocate setting.body.compact) := by
    have hall := congrArg (·.events) hmoved
    simp only [Walk.relocate, Array.map_append] at hall
    exact (Array.append_right_inj _).1 hall
  have hmarks : List.Forall₂ (Event.Alike setting.body.compact) new.toList new'.toList := by
    rw [hevents, Array.toList_map, List.forall₂_map_right_iff, List.forall₂_same]
    exact fun e he => .mark (hnew e he)
  rw [heq walk rfl, heq' walk' rfl]
  constructor
  · exact hblocks
  · exact h.previous
  · simp only [Array.toList_append]
    exact List.rel_append h.events hmarks
  · exact h.labels

/-- Markers that take effect keep walks alike, if the same ones are due. -/
theorem reconcile (h : walk.Alike setting walk') {cursor cursor' : Nat}
    (hsteady : Blocks.Steady setting.body.compact (.upTo cursor) (.upTo cursor') walk.blocks.pending) :
    (walk.reconcile cursor).Alike setting (walk'.reconcile cursor') :=
  framed (framed_reconcile cursor) (framed_reconcile cursor') h (reconcile_relocate hsteady)

theorem closing (h : walk.Alike setting walk')
    (hsteady : Blocks.Steady setting.body.compact .unbounded .unbounded walk.blocks.pending) :
    walk.closing.Alike setting walk'.closing :=
  framed framed_closing framed_closing h (closing_relocate hsteady)

/-- The label of a place is written in both walks. -/
theorem writeLabel (h : walk.Alike setting walk') (htolerant : setting.Tolerant) {p : Nat} (hp : setting.Place p) :
    (walk.writeLabel p).Alike setting (walk'.writeLabel (setting.body.compact p)) := by
  have hpending := h.labels.pending p hp
  generalize hlabel : walk.labels.pending[p]? = waiting at hpending
  generalize hlabel' : walk'.labels.pending[setting.body.compact p]? = waiting' at hpending
  cases hpending with
  | none =>
      rw [writeLabel_of_none hlabel, writeLabel_of_none hlabel']
      exact h
  | @some label label' hnames =>
      have hwritten : Alike setting { walk with labels := walk.labels.write p label }
          { walk' with labels := walk'.labels.write (setting.body.compact p) label' } :=
        ⟨h.blocks, h.previous, h.events, h.labels.write htolerant hp hnames⟩
      rw [writeLabel_of_some hlabel, writeLabel_of_some hlabel', h.labels.keyed p label hlabel,
        h.labels.keyed' _ label' hlabel']
      exact hwritten.emit (.label hnames)

end Alike

/-- Where the code does not lead there is no label. -/
theorem Alike.pending_eq_none {setting : Setting} {walk walk' : Walk} (h : walk.Alike setting walk') {p : Nat}
    (hp : ¬ setting.Place p) : walk.labels.pending[p]? = none := by
  by_contra hsome
  apply hp
  apply h.labels.places
  intro hnone
  exact hsome (LabelTable.nameAt?_eq_none.1 hnone).2

theorem Alike.pending_eq_none' {setting : Setting} {walk walk' : Walk} (h : walk.Alike setting walk') {q : Nat}
    (hq : ∀ p, setting.Place p → setting.body.compact p ≠ q) : walk'.labels.pending[q]? = none := by
  by_contra hsome
  obtain ⟨p, hp, heq⟩ := h.labels.places' q fun hnone => hsome (LabelTable.nameAt?_eq_none.1 hnone).2
  exact hq p hp heq

end Walk

/-!
### Instructions
-/

theorem Render.run_map {α β : Type} (g : α → β) (render : Render α) (remark : Option String) :
    (g <$> render).run remark =
      match render.run remark with
      | .ok a after => .ok (g a) after
      | .error error after => .error error after := by
  change EStateM.map g render remark = _
  unfold EStateM.map EStateM.run
  cases render remark <;> rfl

namespace Walk

section

variable {setting : Setting} {body' : Body} {walk walk' : Walk} {i i' : Instruction} {index : Nat}
  (h : setting.ThinsTo body') (halike : walk.Alike setting walk')
  (hgrounded : walk.blocks.Grounded setting.body i.position)
  (htells : i.opcode = .jump → ∀ target ∈ i.jumpTarget?, walk.Tells setting.body i target)
  (hi : setting.body.Counterparts i i') (hindex : setting.body.instructions.toList[index]? = some i)

include h halike hgrounded htells hi hindex

/-- An instruction that is written keeps walks alike, if what it leads to has a label in the source. -/
theorem Alike.write
    (hplaces : ∀ p, setting.body.Landing p → (walk.write setting index i).labels.Mentions p → p ∈ setting.labelPlaces) :
    (walk.write setting index i).Alike setting
      (walk'.write { setting with body := body' } (setting.body.rank index) i') := by
  have hinside : walk'.blocks.isInside .switch = walk.blocks.isInside .switch := by
    rw [halike.blocks, Blocks.isInside_relocate]
  obtain ⟨format, hsuits⟩ := h.regular.suits
  have hsuit := hsuits i hi.mem
  have hstatement := hi.renumbered.statement (Body.compact_le h.regular.tiled) setting.words setting.scope
    (walk.blocks.isInside .switch) hsuit
  unfold Walk.write at hplaces ⊢
  dsimp only at hplaces ⊢
  rw [hinside, hstatement, Render.run_map]
  cases hrun : (i.statement setting.words setting.scope (walk.blocks.isInside .switch)).run none with
  | error error remark =>
      rw [hi.renumbered.position]
      exact halike.emit (.diagnostic i.position error remark)
  | ok statement remark =>
      have hstems := i.statement_stems setting.words setting.scope _ hsuit _ _ _ hrun
      have hacts := perform_actsAlike h.thins halike.blocks hi halike.previous hgrounded htells hindex hstems
      rw [hrun] at hplaces
      dsimp only at hplaces ⊢
      generalize walk.perform setting.body index i statement = result at hacts hplaces
      generalize walk'.perform body' (setting.body.rank index) i' (statement.retarget setting.body.compact) = result'
        at hacts
      cases hacts with
      | @same wording next next' blocks hnext hnext' =>
          subst hnext hnext'
          apply (halike.requeue blocks).emit
          rw [hi.renumbered.position]
          exact .line (wording.line i remark)
      | @goto lead target htarget =>
          have hedge := (h.landed.border h.regular.tiled htarget).edge
          have horigin : setting.body.compact target ≤ i'.position ↔ target ≤ i.position := by
            rw [hi.renumbered.position]
            exact hedge.le_position_iff h.regular.tiled hi.mem hi.shown
          have hplace := hplaces target htarget (walk.labels.mentions_target target i.position)
          obtain ⟨hnames, hlabels⟩ := halike.labels.target h.tolerant ⟨htarget, hplace⟩ horigin
          have hjump : Alike setting { walk with labels := (walk.labels.target target i.position).2 }
              { walk' with labels := (walk'.labels.target (setting.body.compact target) i'.position).2 } :=
            ⟨halike.blocks, halike.previous, halike.events, hlabels⟩
          exact hjump.emit (.goto hnames i i' lead remark)

end

/-!
### Before the first instruction
-/

end Walk

end ScriptBytecode
