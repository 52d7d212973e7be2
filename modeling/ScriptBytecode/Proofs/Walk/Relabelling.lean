/-
Module: ScriptBytecode.Proofs.Walk.Relabelling
Purpose: The second walk on the page. The text of a page falls into the pieces that its events add. Labels open and
  close nothing, so taking their pieces out leaves the others as they are, whatever the layout state at the start.
  Main statement: the second walk over a decoded body is complete and harmless, and every `goto` and every entry of a
  label table that leads to where a label can stand has exactly one label there.
Main exports: Page.pieces, Page.Even, Page.print_even, spans, pieces_eq_spans, Setting.Relabelled, decompile_relabelled
-/
import ScriptBytecode.Proofs.Walk.Indentation
import ScriptBytecode.Proofs.Walk.Rerun

namespace ScriptBytecode

theorem Context.applyPending_idem (context : Context) :
    context.applyPending.applyPending = context.applyPending := by
  simp only [applyPending, Int.add_zero, Int.toNat_natCast]

namespace Page

/-- The text that each event adds to a page. -/
def pieces (page : Page) : List Event → List (Event × String)
  | [] => []
  | e :: rest => (e, ({ page with text := "" }.print e).text) :: (page.print e).pieces rest

/-- The page stands at the starting indentation plus one unit for each open block, or below zero while nothing is open
    and nothing has been written. -/
def Even (page : Page) (start : Nat) (chain : List OpenBlock) : Prop :=
  page.level = start + chain.length ∨ (chain = [] ∧ start = 0 ∧ page.level < 0)

/-- The page once a pending change of the indentation has taken effect. -/
def settle (page : Page) : Page := { page with context := page.context.applyPending }

theorem settle_line (page : Page) (text : String) : page.settle.line text = page.line text := by
  simp only [settle, line, Context.applyPending_idem]

theorem settle_label (page : Page) (name : String) : page.settle.label name = page.label name := by
  simp only [settle, label, Context.applyPending_idem]

theorem settle_openBrace (page : Page) (header : String) : page.settle.openBrace header = page.openBrace header := by
  simp only [openBrace, settle_line]
  rfl

theorem comment_of_none (page : Page) {text : Option String} (h : page.context.options.remark text = none) :
    page.comment text = page := by
  unfold Options.remark at h
  unfold comment
  cases text with
  | none => rfl
  | some text => simp_all

theorem settle_comment {page : Page} {text : Option String} (h : page.context.options.remark text ≠ none) :
    page.settle.comment text = page.comment text := by
  unfold Options.remark at h
  unfold comment
  have hoptions : page.settle.context.options = page.context.options := rfl
  cases text with
  | none => simp at h
  | some text =>
      cases hsuppress : page.context.options.suppressComments with
      | true => simp [hsuppress] at h
      | false => simp [hoptions, hsuppress, settle_line]

/-- A statement that writes a line lets a pending change of the indentation take effect. -/
theorem settle_statement {page : Page} {line : Line}
    (h : (Event.statement line).texts page.context.options ≠ []) :
    page.settle.statement line = page.statement line := by
  unfold statement
  cases hremark : page.context.options.remark line.preComment with
  | some remark => rw [settle_comment (by simp [hremark])]
  | none =>
      have htext : line.text.isEmpty = false := by
        simpa [Event.texts, hremark] using h
      have hoptions : page.settle.context.options = page.context.options := rfl
      rw [page.comment_of_none hremark, page.settle.comment_of_none hremark]
      simp only [htext, settle_line, hoptions, Bool.false_eq_true, if_false]

/-- A statement that writes nothing leaves the page where it is. -/
theorem statement_of_nil {page : Page} {line : Line}
    (h : (Event.statement line).texts page.context.options = []) :
    (page.statement line).text = page.text ∧ (page.statement line).level = page.level ∧
      (page.statement line).context.options = page.context.options := by
  simp only [Event.texts, List.append_eq_nil_iff, Option.toList_eq_nil_iff, ite_eq_left_iff,
    List.cons_ne_self, imp_false, Bool.not_eq_true, Bool.not_eq_false] at h
  unfold statement
  rw [page.comment_of_none h.1]
  simp [h.2, level]

/-- What an event does to the page, also below zero. There a line is written at zero, so it makes no difference
    whether a label was written before it. -/
theorem print_even (page : Page) {start : Nat} {chain next : List OpenBlock} {e : Event}
    (heven : page.Even start chain) (hfollow : e.follow chain = some next)
    (harm : e.isArm = true → chain ≠ []) :
    (page.print e).text = page.text ++ String.join ((e.rows page.context.options chain).map
        (Row.render page.context.options start)) ∧
      (page.print e).Even start next ∧ (page.print e).context.options = page.context.options := by
  rcases heven with hlevel | ⟨rfl, rfl, hbelow⟩
  · obtain ⟨htext, hnext, hoptions⟩ := print_spec hlevel hfollow
    exact ⟨htext, Or.inl hnext, hoptions⟩
  · have hzero : page.settle.level = (0 : Nat) + ([] : List OpenBlock).length := by
      have hindent : page.context.applyPending.indent = 0 := Int.toNat_of_nonpos (Int.le_of_lt hbelow)
      simp [level, settle, hindent]
      rfl
    have hsettled : page.settle.print e = page.print e →
        (page.print e).text = page.text ++ String.join ((e.rows page.context.options []).map
          (Row.render page.context.options 0)) ∧
        (page.print e).Even 0 next ∧ (page.print e).context.options = page.context.options := by
      intro hprint
      obtain ⟨htext, hnext, hoptions⟩ := print_spec hzero hfollow
      rw [hprint] at htext hnext hoptions
      exact ⟨htext, Or.inl hnext, hoptions⟩
    cases e with
    | opened block header =>
        have hbraces : block.kind.isLabelLike = false := by
          cases hlike : block.kind.isLabelLike with
          | false => rfl
          | true => exact absurd rfl (harm hlike)
        apply hsettled
        simp only [print, hbraces, settle_openBrace, Bool.false_eq_true, if_false]
    | alternative block => cases hfollow
    | closed kind id footer => cases hfollow
    | broke text => exact hsettled (settle_line page text)
    | label name position => exact hsettled (settle_label page name)
    | diagnostic position error postComment =>
        apply hsettled
        simp only [print, diagnostic, settle_line]
    | statement line =>
        by_cases hwrites : (Event.statement line).texts page.context.options = []
        · obtain ⟨htext, hlevel, hoptions⟩ := statement_of_nil hwrites
          cases hfollow
          refine ⟨?_, Or.inr ⟨rfl, rfl, hlevel ▸ hbelow⟩, hoptions⟩
          simp [Event.rows, hwrites, print, htext]
        · exact hsettled (settle_statement hwrites)

end Page

/-!
### Pieces of a page
-/

/-- What each event writes when the blocks of `chain` are open before the first. -/
def spans (options : Options) (start : Nat) (chain : List OpenBlock) : List Event → List (Event × String)
  | [] => []
  | e :: rest =>
    (e, String.join ((e.rows options chain).map (Row.render options start))) ::
      spans options start ((e.follow chain).getD chain) rest

/-- The pieces of a page are read off the brackets, and they make up its text. -/
theorem pieces_eq_spans {events : List Event} {page : Page} {start : Nat} {chain last : List OpenBlock}
    (heven : page.Even start chain) (hfollows : events.foldlM Event.follow chain = some last)
    (harmed : Armed chain events) :
    page.pieces events = spans page.context.options start chain events ∧
      (events.foldl Page.print page).text =
        page.text ++ String.join ((spans page.context.options start chain events).map (·.2)) := by
  induction events generalizing page chain with
  | nil => exact ⟨rfl, by simp [spans]⟩
  | cons e rest ih =>
      rw [List.foldlM_cons] at hfollows
      obtain ⟨next, hfollow, hrest⟩ := Option.bind_eq_some_iff.1 hfollows
      have harm : e.isArm = true → chain ≠ [] := fun he hempty =>
        harmed [] e rest rfl he (congrArg some hempty)
      have harmedRest : Armed next rest := by
        intro before arm after hsplit hisArm
        have hchain := harmed (e :: before) arm after (by rw [hsplit]; rfl) hisArm
        rwa [List.foldlM_cons, hfollow] at hchain
      obtain ⟨htext, hnext, hoptions⟩ := page.print_even heven hfollow harm
      obtain ⟨hblank, -, -⟩ := Page.print_even { page with text := "" } heven hfollow harm
      obtain ⟨hpieces, hrestText⟩ := ih hnext hrest harmedRest
      rw [hoptions] at hpieces hrestText
      constructor
      · rw [Page.pieces, spans, hfollow, hblank, hpieces]
        simp
      · rw [List.foldl_cons, hrestText, htext, spans, hfollow]
        simp [String.append_assoc]

/-- Taking labels out leaves the other pieces as they are. -/
theorem spans_filter (options : Options) (start : Nat) (chain : List OpenBlock) (events : List Event)
    (condition : Nat → Bool) :
    spans options start chain (events.filter (!·.isLabelWhere condition)) =
      (spans options start chain events).filter (!·.1.isLabelWhere condition) := by
  induction events generalizing chain with
  | nil => rfl
  | cons e rest ih =>
      cases hlabel : e.isLabelWhere condition with
      | false => simp [spans, hlabel, ih]
      | true =>
          have hfollow : e.follow chain = some chain := by
            cases e with
            | label name position => rfl
            | _ => cases hlabel
          simp [spans, hlabel, hfollow, ih]

/-- The page at the start of a layout. -/
theorem Context.even (context : Context) :
    (Page.mk context "").Even ((context.indent : Int) + context.pendingIndent).toNat [] := by
  unfold Page.Even Page.level
  dsimp only
  by_cases hlevel : 0 ≤ (context.indent : Int) + context.pendingIndent
  · exact Or.inl (by simp [Int.toNat_of_nonneg hlevel])
  · exact Or.inr ⟨rfl, Int.toNat_of_nonpos (by omega), by omega⟩

/-- What the events of a walk write is read off their brackets, from any layout state on. -/
theorem Setting.layOut_walk (setting : Setting) (seeds : List Nat) (context : Context) :
    Page.pieces { context } (setting.walk seeds).events.toList =
        spans context.options ((context.indent : Int) + context.pendingIndent).toNat []
          (setting.walk seeds).events.toList ∧
      (context.layOut (setting.walk seeds).events).1 =
        String.join ((Page.pieces { context } (setting.walk seeds).events.toList).map (·.2)) := by
  obtain ⟨hbracketed, -⟩ := setting.bracketed_walk seeds
  obtain ⟨hpieces, htext⟩ := pieces_eq_spans context.even hbracketed.follows hbracketed.arms
  refine ⟨hpieces, ?_⟩
  rw [Context.layOut, ← Array.foldl_toList, hpieces]
  simpa using htext

/-!
### The second walk
-/

/-- The walk that starts with labels at the positions `seeds` against the walk that starts without. -/
structure Setting.Relabelled (setting : Setting) (seeds : List Nat) (context : Context) : Prop where
  /-- It misses nothing. -/
  complete : (setting.walk seeds).labels.missed.isEmpty = true
  /-- It has the same blocks after every instruction. -/
  blocks : ∀ count, (setting.walkTo seeds count).blocks = (setting.walkTo [] count).blocks
  /-- It records the same events but for the labels at the seeds. -/
  events : (setting.walk []).events.toList =
    (setting.walk seeds).events.toList.filter (!·.isLabelWhere (seeds.contains ·))
  /-- Its text is made of the pieces that its events add. -/
  text : (context.layOut (setting.walk seeds).events).1 =
    String.join ((Page.pieces { context } (setting.walk seeds).events.toList).map (·.2))
  /-- Without the lines of the labels at the seeds it has the same text. -/
  text_without : (context.layOut (setting.walk []).events).1 =
    String.join (((Page.pieces { context } (setting.walk seeds).events.toList).filter
      (!·.1.isLabelWhere (seeds.contains ·))).map (·.2))
  /-- The line of a jump has no text of its own, or is a `continue`, or a `goto`, and then the target, if a label can
      stand there, is labelled once with the name in the line. -/
  gotos : ∀ i ∈ setting.body.instructions.toList, ∀ target, i.branchTarget? = some target →
    ∀ line, .statement line ∈ (setting.walk seeds).events.toList → line.position = i.position →
      line.text = "" ∨ line.text = "continue" ∨
        ∃ lead name, Walk.IsLead lead ∧ line.text = s!"{lead}goto {name}" ∧
          (setting.body.IsAddressable target → setting.LabelledOnce seeds target name)
  /-- An entry of a label table, if a label can stand at its position, is labelled once there, with the name of the
      first entry for that position. -/
  tables : ∀ i ∈ setting.body.instructions.toList, ∀ entries, i.token = .labelTable entries →
    ∀ entry ∈ entries, setting.body.IsAddressable entry.position.toNat →
      ∃ label, (Walk.stateLabels setting).find? (·.position == entry.position.toNat) = some label ∧
        setting.LabelledOnce seeds entry.position.toNat label.name
  /-- No position has two labels. -/
  distinct : ∀ p, ((setting.walk seeds).events.toList.filter (·.isLabelWhere (· == p))).length ≤ 1

/-- The label of an entry of a label table is known from the start. -/
theorem Setting.nameAt?_of_entry {setting : Setting} (htiles : Tiles 0 0 setting.body.instructions.toList)
    (seeds : List Nat) {p : Nat} {label : Label}
    (hlabel : (Walk.stateLabels setting).find? (·.position == p) = some label) :
    (setting.walkAll seeds).labels.nameAt? p = some label.name := by
  apply (walkTo_mono htiles seeds (Nat.zero_le _)).1
  obtain ⟨blocks, marks, -, hprepare⟩ := Walk.prepare_eq setting
  show (Walk.prepare setting seeds).labels.nameAt? p = some label.name
  rw [hprepare]
  show (Walk.firstLabels setting seeds).nameAt? p = some label.name
  unfold Walk.firstLabels
  rw [Walk.nameAt?_foldl_register, List.find?_append, hlabel]
  rfl

/-- The lines of a whole walk are those of its instructions. -/
theorem Setting.mem_walk_statement {setting : Setting} {seeds : List Nat} {line : Line}
    (h : .statement line ∈ (setting.walk seeds).events.toList) :
    .statement line ∈ (setting.walkAll seeds).events.toList := by
  obtain ⟨last, marks, hmarks, hfinish⟩ := Walk.finish_eq setting (setting.walkAll seeds).blocks
  rw [walk_eq_finish, ← walkAll, (hfinish _ rfl).2.2, List.mem_append, List.mem_append] at h
  rcases h with (h | h) | h
  · exact h
  · obtain ⟨label, -, hlabel⟩ := List.mem_map.1 h
    cases hlabel
  · cases hmarks _ h

theorem Setting.relabelled {setting : Setting} (htiles : Tiles 0 0 setting.body.instructions.toList)
    {seeds : List Nat} (hseeds : ∀ p, p ∈ seeds ↔ p ∈ (setting.walk []).labels.missed) (context : Context) :
    setting.Relabelled seeds context := by
  obtain ⟨hmissed, hevents⟩ := agrees_walk htiles hseeds
  obtain ⟨hpieces, htext⟩ := setting.layOut_walk seeds context
  constructor
  · exact Std.TreeSet.isEmpty_iff_forall_not_mem.2 hmissed
  · intro count
    exact (agrees_walkTo htiles (setting.missed_walk [] ▸ hseeds) count).blocks
  · exact hevents
  · exact htext
  · obtain ⟨hfirst, hfirstText⟩ := setting.layOut_walk [] context
    rw [hfirstText, hfirst, hevents, spans_filter, hpieces]
  · intro i hi target htarget line hline hposition
    obtain ⟨j, hj, hsame, hreaches⟩ := (labelled_walkAll htiles seeds).said line (mem_walk_statement hline)
    obtain rfl := htiles.eq_of_position hi hj (hposition.symm.trans hsame.symm)
    rcases hreaches target htarget with hempty | hcontinue | ⟨lead, name, hlead, hgoto, hname⟩
    · exact Or.inl hempty
    · exact Or.inr (Or.inl hcontinue)
    · have hnamed := hname.resolve_right (setting.missed_walk seeds ▸ hmissed target)
      exact Or.inr (Or.inr ⟨lead, name, hlead, hgoto, labelledOnce_of_name htiles hnamed⟩)
  · intro i hi entries hentries entry hentry haddressable
    have hknown : ((Walk.stateLabels setting).find? (·.position == entry.position.toNat)).isSome = true := by
      rw [List.find?_isSome]
      refine ⟨⟨setting.words.symbols.nameText entry.name, entry.position.toNat, .state⟩, ?_, by simp⟩
      apply List.mem_map_of_mem
      exact List.mem_flatMap.2 ⟨i, hi, by rw [hentries]; exact hentry⟩
    obtain ⟨label, hlabel⟩ := Option.isSome_iff_exists.1 hknown
    exact ⟨label, hlabel, labelledOnce_of_name htiles (nameAt?_of_entry htiles seeds hlabel) haddressable⟩
  · exact length_labels_walk_le htiles seeds

/-- Whatever the jumps and the label tables of a decoded body lead to, and in whatever layout state it starts, the
    source is that of the walk which has labels at the targets that the first walk missed. That walk misses nothing and
    differs from the first in these labels alone, and every `goto` and every entry of a label table leads to exactly one
    label where one can stand. -/
theorem decompile_relabelled (source : Source) (dialect : Dialect) (words : Vocabulary) (context : Context) :
    let body := source.decode dialect
    let setting := body.setting words context
    let seeds := (setting.walk []).labels.missed.toList
    setting.Relabelled seeds context ∧
      body.decompile words context = context.layOut (setting.walk seeds).events := by
  intro body setting seeds
  have htiles : Tiles 0 0 setting.body.instructions.toList := decode_tiles source dialect
  refine ⟨setting.relabelled htiles (fun p => Std.TreeSet.mem_toList) context, ?_⟩
  show context.layOut setting.events = _
  unfold Setting.events
  dsimp only
  split
  · rename_i hempty
    have hnone : seeds = [] := List.isEmpty_iff.1 (Std.TreeSet.isEmpty_toList.trans hempty)
    rw [hnone]
  · rfl

-- The first walk misses the target of a jump to itself, and the second has a label there.
example : (Setting.events
    { body :=
        { declaration := "spin"
          declaredSize := 3
          format := ⟨0, 0⟩
          instructions := #[
            { code := ⟨0x06, none⟩
              opcode := .jump
              position := 0
              size := 3
              storagePosition := 0
              storageSize := 3
              token := .jump 0 }]
          failure := none }
      words := noWords }).toList =
    [.label "J0x0000" 0, .statement { position := 0, text := "goto J0x0000", terminated := true }] := by
  decide +kernel

end ScriptBytecode
