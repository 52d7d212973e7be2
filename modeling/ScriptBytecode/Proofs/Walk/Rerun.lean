/-
Module: ScriptBytecode.Proofs.Walk.Rerun
Purpose: The second walk over a body, which starts with labels at the targets that the first one missed. It makes the
  same decisions step by step, because labels decide nothing; it misses nothing, because a missed target never had a
  label in the first walk and has one from the start in the second.
Main exports: Walk.Agrees, Walk.Agrees.follow, Setting.agrees_walkTo, Setting.agrees_walk, Setting.LabelledOnce,
  Setting.labelledOnce_of_name
-/
import ScriptBytecode.Proofs.Walk.Labels

namespace ScriptBytecode

/-- Events of markers are no labels. -/
theorem filter_fromMarker {marks : List Event} (h : ∀ e ∈ marks, e.fromMarker = true) (condition : Nat → Bool) :
    marks.filter (!·.isLabelWhere condition) = marks :=
  List.filter_eq_self.2 fun e he => by simp [Event.isLabelWhere_of_fromMarker (h e he)]

namespace Walk

/-- Two walks that differ in the labels of the positions `seeds` only. These have no label in the first walk and one
    with a made-up name in the second. -/
structure Agrees (seeds : List Nat) (first second : Walk) : Prop where
  blocks : second.blocks = first.blocks
  previous : second.previous = first.previous
  events : first.events.toList = second.events.toList.filter (!·.isLabelWhere (seeds.contains ·))
  pending : ∀ p, p ∉ seeds → second.labels.pending[p]? = first.labels.pending[p]?
  emitted : ∀ p, p ∉ seeds → second.labels.emitted[p]? = first.labels.emitted[p]?
  seeded : ∀ p ∈ seeds, second.labels.nameAt? p = some (gotoLabelName p)
  missed : ∀ p, p ∉ second.labels.missed

namespace Agrees

variable {seeds : List Nat} {first second : Walk}

theorem nameAt? (h : Agrees seeds first second) {p : Nat} (hp : p ∉ seeds) :
    second.labels.nameAt? p = first.labels.nameAt? p := by
  rw [LabelTable.nameAt?, LabelTable.nameAt?, h.pending p hp, h.emitted p hp]

/-- Events of markers are added to both walks. -/
theorem record (h : Agrees seeds first second) (blocks : Blocks) (previous : Option Opcode) {new : Array Event}
    (hnew : ∀ e ∈ new.toList, e.fromMarker = true) :
    Agrees seeds ((first.resume blocks previous).record new) ((second.resume blocks previous).record new) where
  blocks := rfl
  previous := rfl
  events := by
    show (first.events ++ new).toList = (second.events ++ new).toList.filter _
    rw [Array.toList_append, Array.toList_append, List.filter_append, h.events, filter_fromMarker hnew]
  pending := h.pending
  emitted := h.emitted
  seeded := h.seeded
  missed := h.missed

theorem emit (h : Agrees seeds first second) {e : Event} (he : ∀ condition, e.isLabelWhere condition = false) :
    Agrees seeds (first.emit e) (second.emit e) where
  blocks := h.blocks
  previous := h.previous
  events := by
    show (first.events.push e).toList = (second.events.push e).toList.filter _
    rw [Array.toList_push, Array.toList_push, List.filter_append, h.events]
    simp [he]
  pending := h.pending
  emitted := h.emitted
  seeded := h.seeded
  missed := h.missed

/-- The second walk writes a label that the first does not have. -/
theorem writeSeed {passed : List Instruction} (h : Agrees seeds first second) (hsecond : second.Labelled passed)
    {position : Nat} {label : Label} (hseed : position ∈ seeds)
    (hlabel : second.labels.pending[position]? = some label) :
    Agrees seeds first ({ second with labels := second.labels.write position label }.emit
      (.label label.name label.position)) where
  blocks := h.blocks
  previous := h.previous
  events := by
    show _ = (second.events.push _).toList.filter _
    rw [Array.toList_push, List.filter_append, h.events, hsecond.keyed _ _ hlabel]
    simp [Event.isLabelWhere, hseed]
  pending p hp := by
    have hne : position ≠ p := fun heq => hp (heq ▸ hseed)
    show (second.labels.write position label).pending[p]? = _
    rw [LabelTable.write_pending, if_neg hne, h.pending p hp]
  emitted p hp := by
    have hne : position ≠ p := fun heq => hp (heq ▸ hseed)
    show (second.labels.write position label).emitted[p]? = _
    rw [LabelTable.write_emitted, if_neg hne, h.emitted p hp]
  seeded p hp := by
    rw [← h.seeded p hp]
    exact LabelTable.nameAt?_write hlabel (hsecond.emitted_eq_none hlabel) p
  missed := h.missed

/-- Both walks write a label that they share. -/
theorem writeShared {passed : List Instruction} (h : Agrees seeds first second) (hfirst : first.Labelled passed)
    {position : Nat} {label : Label} (hseed : position ∉ seeds)
    (hlabel : first.labels.pending[position]? = some label) :
    Agrees seeds
      ({ first with labels := first.labels.write position label }.emit (.label label.name label.position))
      ({ second with labels := second.labels.write position label }.emit (.label label.name label.position)) where
  blocks := h.blocks
  previous := h.previous
  events := by
    show (first.events.push _).toList = (second.events.push _).toList.filter _
    rw [Array.toList_push, Array.toList_push, List.filter_append, h.events, hfirst.keyed _ _ hlabel]
    simp [Event.isLabelWhere, hseed]
  pending p hp := by
    show (second.labels.write position label).pending[p]? = (first.labels.write position label).pending[p]?
    rw [LabelTable.write_pending, LabelTable.write_pending, h.pending p hp]
  emitted p hp := by
    show (second.labels.write position label).emitted[p]? = (first.labels.write position label).emitted[p]?
    rw [LabelTable.write_emitted, LabelTable.write_emitted, h.emitted p hp]
  seeded p hp := by
    have hne : position ≠ p := fun heq => hseed (heq ▸ hp)
    rw [← h.seeded p hp]
    show (second.labels.write position label).nameAt? p = _
    rw [LabelTable.nameAt?, LabelTable.write_pending, LabelTable.write_emitted, if_neg hne, if_neg hne]
    rfl
  missed := h.missed

theorem writeLabel {passed : List Instruction} (h : Agrees seeds first second) (hfirst : first.Labelled passed)
    (hsecond : second.Labelled passed) (hunnamed : ∀ p ∈ seeds, first.labels.nameAt? p = none) (position : Nat) :
    Agrees seeds (first.writeLabel position) (second.writeLabel position) := by
  by_cases hseed : position ∈ seeds
  · rw [writeLabel_of_none (LabelTable.nameAt?_eq_none.1 (hunnamed position hseed)).2]
    cases hlabel : second.labels.pending[position]? with
    | none =>
        rw [writeLabel_of_none hlabel]
        exact h
    | some label =>
        rw [writeLabel_of_some hlabel]
        exact h.writeSeed hsecond hseed hlabel
  · have hsame := h.pending position hseed
    cases hlabel : first.labels.pending[position]? with
    | none =>
        rw [writeLabel_of_none hlabel, writeLabel_of_none (hsame.trans hlabel)]
        exact h
    | some label =>
        rw [writeLabel_of_some hlabel, writeLabel_of_some (hsame.trans hlabel)]
        exact h.writeShared hfirst hseed hlabel

/-- Both walks register a label. -/
theorem register (h : Agrees seeds first second) (label : Label) :
    Agrees seeds { first with labels := first.labels.register label }
      { second with labels := second.labels.register label } where
  blocks := h.blocks
  previous := h.previous
  events := h.events
  pending p hp := by
    show (second.labels.register label).pending[p]? = (first.labels.register label).pending[p]?
    rw [LabelTable.register_pending, LabelTable.register_pending, h.nameAt? hp, h.pending p hp]
  emitted p hp := by
    show (second.labels.register label).emitted[p]? = (first.labels.register label).emitted[p]?
    rw [LabelTable.register_emitted, LabelTable.register_emitted, h.emitted p hp]
  seeded p hp := LabelTable.nameAt?_register_of_some (h.seeded p hp) label
  missed p hp := h.missed p (LabelTable.register_missed second.labels label ▸ hp)

/-- A jump is written with the same name in both walks, provided that the first misses only seeds and gives none of
    them a label. -/
theorem jump (h : Agrees seeds first second) {target origin : Nat}
    (hunnamed : ∀ p ∈ seeds, (first.labels.target target origin).2.nameAt? p = none)
    (hmissed : ∀ p ∈ (first.labels.target target origin).2.missed, p ∈ seeds) :
    (second.labels.target target origin).1 = (first.labels.target target origin).1 ∧
      Agrees seeds { first with labels := (first.labels.target target origin).2 }
        { second with labels := (second.labels.target target origin).2 } := by
  rcases first.labels.target_cases target origin with
    ⟨name, hname, hfirst⟩ | ⟨hnone, hbehind, hfirst⟩ | ⟨hnone, hahead, hfirst⟩
  · rw [hfirst] at hunnamed ⊢
    have hseed : target ∉ seeds := fun hmem => by
      have hnone := hunnamed target hmem
      rw [hname] at hnone
      cases hnone
    rw [LabelTable.target_of_name ((h.nameAt? hseed).trans hname)]
    exact ⟨rfl, h⟩
  · rw [hfirst] at hmissed ⊢
    have hseed : target ∈ seeds := hmissed target Std.TreeSet.mem_insert_self
    rw [LabelTable.target_of_name (h.seeded target hseed)]
    exact ⟨rfl, h.blocks, h.previous, h.events, h.pending, h.emitted, h.seeded, h.missed⟩
  · rw [hfirst] at hunnamed ⊢
    have hseed : target ∉ seeds := fun hmem => by
      have hself := LabelTable.nameAt?_register_self ⟨gotoLabelName target, target, .goto⟩ hnone
      rw [hunnamed target hmem] at hself
      cases hself
    rw [LabelTable.target_of_ahead ((h.nameAt? hseed).trans hnone) hahead]
    exact ⟨rfl, h.register _⟩

/-- A step that misses only seeds, and gives none of them a label, keeps the walks in agreement. -/
theorem follow {passed : List Instruction} (h : Agrees seeds first second) (hfirst : first.Labelled passed)
    (hsecond : second.Labelled passed) {i : Instruction} {outcome : Outcome} (hfits : outcome.Fits i)
    (hunnamed : ∀ p ∈ seeds, (outcome.follow i first).labels.nameAt? p = none)
    (hmissed : ∀ p ∈ (outcome.follow i first).labels.missed, p ∈ seeds) :
    Agrees seeds (outcome.follow i first) (outcome.follow i second) := by
  have hbefore : ∀ p ∈ seeds, first.labels.nameAt? p = none := by
    intro p hp
    cases hname : first.labels.nameAt? p with
    | none => rfl
    | some name =>
        have hlater := (hfirst.follow_mono i outcome).1 p name hname
        rw [hunnamed p hp] at hlater
        cases hlater
  have hlabel := h.writeLabel hfirst hsecond hbefore i.position
  unfold Outcome.follow at hunnamed hmissed ⊢
  suffices hsaid : Agrees seeds ((first.writeLabel i.position).say i outcome.said)
      ((second.writeLabel i.position).say i outcome.said) from
    hsaid.record _ _ hfits.marks
  have hfitsSaid := hfits.said
  cases hsaid : outcome.said with
  | silence => exact hlabel
  | event e =>
      rw [hsaid] at hfitsSaid
      rcases hfitsSaid with ⟨line, rfl, -⟩ | ⟨error, remark, rfl⟩
      · exact hlabel.emit fun _ => rfl
      · exact hlabel.emit fun _ => rfl
  | goto lead target remark =>
      rw [hsaid] at hunnamed hmissed
      obtain ⟨hname, hjump⟩ := hlabel.jump hunnamed hmissed
      unfold Walk.say
      dsimp only
      rw [hname]
      exact hjump.emit fun _ => rfl

end Agrees

/-!
### Before the first instruction
-/

theorem foldl_register_emitted (labels : List Label) (table : LabelTable) :
    (labels.foldl LabelTable.register table).emitted = table.emitted := by
  induction labels generalizing table with
  | nil => rfl
  | cons label rest ih => exact (ih _).trans (LabelTable.register_emitted ..)

/-- The first label that is registered at a position gives it its name. -/
theorem nameAt?_foldl_register (labels : List Label) (table : LabelTable) (p : Nat) :
    (labels.foldl LabelTable.register table).nameAt? p =
      (table.nameAt? p).or ((labels.find? (·.position == p)).map (·.name)) := by
  induction labels generalizing table with
  | nil => simp
  | cons label rest ih =>
      rw [List.foldl_cons, ih]
      by_cases hposition : label.position = p
      · subst hposition
        cases hname : table.nameAt? label.position with
        | none => simp [LabelTable.nameAt?_register_self _ hname]
        | some name => simp [LabelTable.nameAt?_register_of_some hname]
      · simp [LabelTable.nameAt?_register_of_ne hposition, hposition]

theorem foldl_register_pending (labels : List Label) {table : LabelTable} {p : Nat}
    (h : ∀ label ∈ labels, label.position ≠ p) :
    (labels.foldl LabelTable.register table).pending[p]? = table.pending[p]? := by
  induction labels generalizing table with
  | nil => rfl
  | cons label rest ih =>
      rw [List.foldl_cons, ih fun other hother => h other (List.mem_cons_of_mem _ hother),
        LabelTable.register_pending, if_neg fun hnew => h label (List.mem_cons_self ..) hnew.1]

theorem find?_seedLabels {seeds : List Nat} {p : Nat} (hp : p ∈ seeds) :
    (seedLabels seeds).find? (·.position == p) = some ⟨gotoLabelName p, p, .goto⟩ := by
  induction seeds with
  | nil => cases hp
  | cons seed rest ih =>
      by_cases hseed : seed = p
      · subst hseed
        simp [seedLabels]
      · have hrest := ih ((List.mem_cons.1 hp).resolve_left (Ne.symm hseed))
        simpa [seedLabels, hseed] using hrest

theorem firstLabels_eq (setting : Setting) (seeds : List Nat) :
    firstLabels setting seeds = (seedLabels seeds).foldl LabelTable.register (firstLabels setting []) := by
  unfold firstLabels
  rw [List.foldl_append, show seedLabels [] = [] from rfl, List.append_nil]

theorem agrees_prepare (setting : Setting) {seeds : List Nat}
    (h : ∀ p ∈ seeds, (prepare setting []).labels.nameAt? p = none) :
    Agrees seeds (prepare setting []) (prepare setting seeds) := by
  have hlabelled := labelled_prepare setting seeds
  obtain ⟨blocks, marks, hmarks, hprepare⟩ := prepare_eq setting
  rw [hprepare] at h hlabelled ⊢
  rw [hprepare]
  have hseeds := firstLabels_eq setting seeds
  constructor
  · rfl
  · rfl
  · simp [Walk.record, resume, filter_fromMarker hmarks]
  · intro p hp
    show (firstLabels setting seeds).pending[p]? = (firstLabels setting []).pending[p]?
    rw [hseeds]
    apply foldl_register_pending
    intro label hlabel hposition
    obtain ⟨seed, hseed, rfl⟩ := List.mem_map.1 hlabel
    exact hp (hposition ▸ hseed)
  · intro p hp
    show (firstLabels setting seeds).emitted[p]? = (firstLabels setting []).emitted[p]?
    rw [hseeds, foldl_register_emitted]
  · intro p hp
    show (firstLabels setting seeds).nameAt? p = some (gotoLabelName p)
    have hnone : (firstLabels setting []).nameAt? p = none := h p hp
    rw [hseeds, nameAt?_foldl_register, hnone, find?_seedLabels hp]
    rfl
  · intro p hp
    obtain ⟨-, i, hi, -⟩ := hlabelled.missed p hp
    cases hi

/-!
### After the last instruction
-/

/-- The event of a label. -/
def labelEvent (label : Label) : Event := .label label.name label.position

theorem writeLastLabels_eq (setting : Setting) (walk : Walk) :
    walk.writeLastLabels setting =
      record { walk with labels := walk.labels.drain.2 }
        ((walk.labels.labelsFrom setting.body.codeEnd).map labelEvent).toArray := by
  have hfold : ∀ (labels : List Label) (walk : Walk),
      labels.foldl (fun walk label => walk.emit (.label label.name label.position)) walk =
        walk.record (labels.map labelEvent).toArray := by
    intro labels
    induction labels with
    | nil => exact fun walk => by simp [record]
    | cons label rest ih =>
        intro walk
        rw [List.foldl_cons, ih]
        simp [record, Walk.emit, labelEvent]
  exact hfold _ _

/-- The end of a walk adds the labels that lie past the code, and then events that only hang on the blocks. -/
theorem finish_eq (setting : Setting) (blocks : Blocks) :
    ∃ (last : Blocks) (marks : Array Event), (∀ e ∈ marks.toList, e.fromMarker = true) ∧
      ∀ walk : Walk, walk.blocks = blocks →
        (walk.finish setting).labels = walk.labels.drain.2 ∧
        (walk.finish setting).blocks = last ∧
        (walk.finish setting).events.toList = walk.events.toList ++
          (walk.labels.labelsFrom setting.body.codeEnd).map labelEvent ++ marks.toList := by
  obtain ⟨last, marks, hmarks, hclosing⟩ := framed_closing blocks
  refine ⟨last.drain.2, marks, hmarks, fun walk hblocks => ?_⟩
  rw [finish_eq_flush, flush, hclosing _ ((writeLastLabels_blocks ..).trans hblocks), writeLastLabels_eq]
  exact ⟨rfl, rfl, by simp [record]⟩

end Walk

namespace Setting

variable {setting : Setting} (htiles : Tiles 0 0 setting.body.instructions.toList)

include htiles

/-- A target that the first walk has missed by its end has no label at any time before. -/
theorem nameAt?_of_missed {seeds : List Nat} {p : Nat}
    (hp : p ∈ (setting.walkAll seeds).labels.missed) (count : Nat) :
    (setting.walkTo seeds count).labels.nameAt? p = none := by
  have hnone := ((labelled_walkAll htiles seeds).missed p hp).1
  cases hname : (setting.walkTo seeds count).labels.nameAt? p with
  | none => rfl
  | some name =>
      rcases Nat.le_total count setting.body.instructions.size with hle | hle
      · have hlater := (walkTo_mono htiles seeds hle).1 p name hname
        rw [← walkAll, hnone] at hlater
        cases hlater
      · rw [walkTo_of_size_le setting seeds hle, hnone] at hname
        cases hname

/-- The walk that starts with labels at the targets that the first one missed agrees with it after every
    instruction. -/
theorem agrees_walkTo {seeds : List Nat}
    (hseeds : ∀ p, p ∈ seeds ↔ p ∈ (setting.walkAll []).labels.missed)
    (count : Nat) : Walk.Agrees seeds (setting.walkTo [] count) (setting.walkTo seeds count) := by
  have hunnamed : ∀ count, ∀ p ∈ seeds, (setting.walkTo [] count).labels.nameAt? p = none :=
    fun count p hp => nameAt?_of_missed htiles ((hseeds p).1 hp) count
  induction count with
  | zero => exact Walk.agrees_prepare setting (hunnamed 0)
  | succ count ih =>
      cases hi : setting.body.instructions.toList[count]? with
      | none =>
          rw [walkTo_succ_of_none setting seeds hi, walkTo_succ_of_none setting [] hi]
          exact ih
      | some i =>
          have hcount : count + 1 ≤ setting.body.instructions.size :=
            (List.getElem?_eq_some_iff.1 hi).1
          have hnext := hunnamed (count + 1)
          have hmissed : ∀ p ∈ (setting.walkTo [] (count + 1)).labels.missed, p ∈ seeds :=
            fun p hp => (hseeds p).2 ((walkTo_mono htiles [] hcount).2 p hp)
          obtain ⟨outcome, hfits, hfollow⟩ := Walk.exists_outcome setting i count
            (setting.walkTo [] count).blocks (setting.walkTo [] count).previous
          rw [walkTo_succ setting [] hi, hfollow _ rfl rfl] at hnext hmissed ⊢
          rw [walkTo_succ setting seeds hi, hfollow _ ih.blocks ih.previous]
          exact ih.follow (labelled_walkTo htiles [] count) (labelled_walkTo htiles seeds count) hfits hnext hmissed

/-- A target that was missed lies inside the code. -/
theorem missed_lt_codeEnd {seeds : List Nat} {p : Nat}
    (hp : p ∈ (setting.walkAll seeds).labels.missed) : p < setting.body.codeEnd := by
  obtain ⟨-, i, hi, hle⟩ := (labelled_walkAll htiles seeds).missed p hp
  have hend := Body.endPosition_le_codeEnd (htiles.ordered.imp (Nat.le_trans · (Nat.le_add_right _ _))) hi
  have hsize := (htiles.nonempty hi).1
  unfold Instruction.endPosition at hend
  omega

omit htiles in
/-- What the end of a walk misses is what its instructions missed. -/
theorem missed_walk (setting : Setting) (seeds : List Nat) :
    (setting.walk seeds).labels.missed =
      (setting.walkAll seeds).labels.missed := by
  obtain ⟨last, marks, -, hfinish⟩ :=
    Walk.finish_eq setting (setting.walkAll seeds).blocks
  rw [walk_eq_finish, ← walkAll, (hfinish _ rfl).1]
  rfl

/-- The whole walks agree: the second misses nothing, and its events are those of the first and the labels at the
    seeds. -/
theorem agrees_walk {seeds : List Nat} (hseeds : ∀ p, p ∈ seeds ↔ p ∈ (setting.walk []).labels.missed) :
    (∀ p, p ∉ (setting.walk seeds).labels.missed) ∧
      (setting.walk []).events.toList =
        (setting.walk seeds).events.toList.filter (!·.isLabelWhere (seeds.contains ·)) := by
  simp only [missed_walk] at hseeds ⊢
  have hagrees : Walk.Agrees seeds (setting.walkAll []) (setting.walkAll seeds) :=
    agrees_walkTo htiles hseeds setting.body.instructions.size
  have hfirst := labelled_walkAll htiles []
  have hsecond := labelled_walkAll htiles seeds
  have hinside : ∀ p, setting.body.codeEnd ≤ p → p ∉ seeds := fun p hp hseed =>
    absurd (missed_lt_codeEnd htiles ((hseeds p).1 hseed)) (Nat.not_lt.2 hp)
  obtain ⟨last, marks, hmarks, hfinish⟩ :=
    Walk.finish_eq setting (setting.walkAll []).blocks
  rw [walk_eq_finish, walk_eq_finish, ← walkAll, ← walkAll, (hfinish _ rfl).2.2, (hfinish _ hagrees.blocks).2.2]
  refine ⟨hagrees.missed, ?_⟩
  have hlast := LabelTable.labelsFrom_congr hsecond.keyed hfirst.keyed
    fun p hp => hagrees.pending p (hinside p hp)
  -- The labels past the code are in both walks, and none of them is a seed.
  have hkeep : ∀ e ∈ ((setting.walkAll []).labels.labelsFrom
      setting.body.codeEnd).map Walk.labelEvent, (!e.isLabelWhere (seeds.contains ·)) = true := by
    intro e he
    obtain ⟨label, hlabel, rfl⟩ := List.mem_map.1 he
    have hpast := of_decide_eq_true (List.mem_filter.1 hlabel).2
    simp [Walk.labelEvent, Event.isLabelWhere, hinside _ hpast]
  rw [List.filter_append, List.filter_append, hlast, List.filter_eq_self.2 hkeep, ← hagrees.events,
    filter_fromMarker hmarks]

/-!
### Labels of a whole walk
-/

/-- The labels that a whole walk has written at a position: before the instruction there, or after the last one. -/
theorem labels_walk (seeds : List Nat) (p : Nat) :
    (setting.walk seeds).events.toList.filter (·.isLabelWhere (· == p)) =
      ((setting.walkAll seeds).labels.emitted[p]?.map (Event.label · p)).toList ++
        if setting.body.codeEnd ≤ p then
          ((setting.walkAll seeds).labels.pending[p]?.map
            (Event.label ·.name p)).toList
        else [] := by
  have hlabelled := labelled_walkAll htiles seeds
  obtain ⟨last, marks, hmarks, hfinish⟩ :=
    Walk.finish_eq setting (setting.walkAll seeds).blocks
  have hlast : ∀ labels : List Label, (labels.map Walk.labelEvent).filter (·.isLabelWhere (· == p)) =
      (labels.filter (·.position == p)).map Walk.labelEvent := fun labels => by
    rw [List.filter_map]
    rfl
  have hnone : marks.toList.filter (·.isLabelWhere (· == p)) = [] :=
    List.filter_eq_nil_iff.2 fun e he => by simp [Event.isLabelWhere_of_fromMarker (hmarks e he)]
  rw [walk_eq_finish, ← walkAll, (hfinish _ rfl).2.2, List.filter_append, List.filter_append, hlabelled.written, hlast,
    LabelTable.labelsFrom_filter hlabelled.keyed, hnone, List.append_nil]
  congr 1
  split
  · cases hpending : (setting.walkAll seeds).labels.pending[p]? with
    | none => rfl
    | some label =>
        have hposition := hlabelled.keyed p label hpending
        simp [Walk.labelEvent, hposition]
  · rfl

/-- No position gets two labels. -/
theorem length_labels_walk_le (seeds : List Nat) (p : Nat) :
    ((setting.walk seeds).events.toList.filter (·.isLabelWhere (· == p))).length ≤ 1 := by
  have hlabelled := labelled_walkAll htiles seeds
  rw [labels_walk htiles]
  cases hpending : (setting.walkAll seeds).labels.pending[p]? with
  | none =>
      cases (setting.walkAll seeds).labels.emitted[p]? with
      | none => simp
      | some name => simp
  | some label =>
      rw [hlabelled.emitted_eq_none hpending]
      split <;> simp

end Setting

/-- The position is that of an instruction, or past the code: labels there can be written. -/
def Body.IsAddressable (body : Body) (position : Nat) : Prop :=
  (∃ i ∈ body.instructions.toList, i.position = position) ∨ body.codeEnd ≤ position

/-- A whole walk writes the label of a position exactly once, right before what the instruction there adds, or among
    the labels after the last instruction. -/
structure Setting.LabelledOnce (setting : Setting) (seeds : List Nat) (position : Nat) (name : String) : Prop where
  once : (setting.walk seeds).events.toList.filter (·.isLabelWhere (· == position)) = [.label name position]
  placed :
    (∃ index i, setting.body.instructions.toList[index]? = some i ∧ i.position = position ∧
      (setting.walkTo seeds index).events.toList ++ [.label name position] <+:
        (setting.walk seeds).events.toList) ∨
    setting.body.codeEnd ≤ position ∧ ∃ labels : List Label,
      (setting.walkAll seeds).events.toList ++
        labels.map Walk.labelEvent ++ [.label name position] <+: (setting.walk seeds).events.toList

/-- An addressable position that has a name after the last instruction is labelled once. -/
theorem Setting.labelledOnce_of_name {setting : Setting} (htiles : Tiles 0 0 setting.body.instructions.toList)
    {seeds : List Nat} {p : Nat} {name : String}
    (hname : (setting.walkAll seeds).labels.nameAt? p = some name)
    (haddressable : setting.body.IsAddressable p) : setting.LabelledOnce seeds p name := by
  have hlabelled := labelled_walkAll htiles seeds
  obtain ⟨last, marks, -, hfinish⟩ := Walk.finish_eq setting (setting.walkAll seeds).blocks
  have hevents := (hfinish _ rfl).2.2
  rw [walkAll, ← walk_eq_finish, ← walkAll] at hevents
  have honce := labels_walk htiles seeds p
  cases hpending : (setting.walkAll seeds).labels.pending[p]? with
  | some label =>
      have hunwritten := hlabelled.emitted_eq_none hpending
      have hlabel : label.name = name := by
        simpa [LabelTable.nameAt?, hpending, hunwritten] using hname
      have hpast : setting.body.codeEnd ≤ p :=
        haddressable.resolve_left (by
          rintro ⟨i, hi, hposition⟩
          exact hlabelled.ahead p label hpending i hi hposition)
      constructor
      · rw [honce, hpending, hunwritten, if_pos hpast, ← hlabel]
        rfl
      · -- The label is one of those after the last instruction.
        have hposition := hlabelled.keyed p label hpending
        have hmem : label ∈ (setting.walkAll seeds).labels.labelsFrom setting.body.codeEnd := by
          have hfilter := LabelTable.labelsFrom_filter hlabelled.keyed setting.body.codeEnd p
          rw [if_pos hpast, hpending] at hfilter
          apply List.mem_of_mem_filter
          rw [hfilter]
          exact List.mem_singleton_self label
        obtain ⟨before, after, hsplit⟩ := List.append_of_mem hmem
        refine Or.inr ⟨hpast, before, after.map Walk.labelEvent ++ marks.toList, ?_⟩
        rw [hevents, hsplit]
        simp [Walk.labelEvent, hposition, hlabel]
  | none =>
      have hemitted : (setting.walkAll seeds).labels.emitted[p]? = some name := by
        simpa [LabelTable.nameAt?, hpending] using hname
      constructor
      · rw [honce, hpending, hemitted]
        simp
      · obtain ⟨index, i, hi, hposition, hplaced⟩ := exists_index_of_emitted htiles seeds hemitted
        refine Or.inl ⟨index, i, hi, hposition, hplaced.trans ?_⟩
        rw [hevents, List.append_assoc]
        exact List.prefix_append _ _

end ScriptBytecode
