/-
Module: ScriptBytecode.Proofs.Walk.Containment
Purpose: What a plain instruction adds to the source stays its own. Two walks over bodies that differ in one plain
  instruction run in parallel: before it they are the same, at it each records one event of its own, and after it they
  differ in that event and in nothing that a later step reads. Main statement: the two sources differ in the lines of
  that instruction only, whether it can be written or not.
Main exports: Instruction.lines, Walk.write_plain, Walk.Parallel, Walk.Parallel.step, Setting.WritesAt,
  Setting.swaps_walk, decompile_replaced
-/
import ScriptBytecode.Proofs.Decoding.Conformance
import ScriptBytecode.Proofs.Walk.Outline
import ScriptBytecode.Proofs.Walk.Relabelling

namespace ScriptBytecode

/-!
### Lines of a plain instruction
-/

/-- The lines that a plain instruction adds to the source, before they are indented: its text with the comment that it
    leaves, or a comment alone, or nothing; and one diagnostic if it cannot be written. -/
def Instruction.lines (words : Vocabulary) (scope : Scope) (options : Options) (i : Instruction) : List String :=
  match (i.statement words scope false).run none with
  | .ok (.plain text terminated) comment =>
    if text.isEmpty then []
    else [Line.written options { position := i.position, text, terminated, postComment := comment }]
  | .ok (.remark text) _ => (options.remark (some text)).toList
  | .ok _ _ => []
  | .error error _ => [error.diagnostic i.position]

/-- A statement that adds text and nothing else. -/
def Statement.isText : Statement → Bool
  | .plain _ _ | .remark _ => true
  | _ => false

open Render in
/-- Plain instructions are statements that add text. -/
theorem Instruction.statement_isText {i : Instruction} (h : i.isPlain = true) (words : Vocabulary) (scope : Scope)
    (insideSwitch : Bool) :
    (i.statement words scope insideSwitch).Yields fun statement => statement.isText = true := by
  obtain ⟨hopcode, htoken⟩ := (Bool.and_eq_true ..).mp h
  unfold Instruction.statement
  split
  case h_9 => exact yields_bind fun _ => yields_pure rfl
  case h_10 => exact yields_bind fun _ => yields_pure rfl
  case h_11 =>
    split
    · rename_i hpop
      rw [hpop] at hopcode
      cases hopcode
    · exact yields_bind fun _ => yields_pure rfl
  case h_12 => exact yields_bind fun _ => yields_pure rfl
  all_goals
    rename_i hdirects
    rw [hdirects] at htoken
    cases htoken

/-- What a plain instruction comes to does not depend on the blocks around it. -/
theorem Instruction.statement_insideSwitch {i : Instruction} (h : i.token.isPlain = true) (words : Vocabulary)
    (scope : Scope) (insideSwitch : Bool) :
    i.statement words scope insideSwitch = i.statement words scope false := by
  unfold Instruction.statement
  generalize i.token = token at h
  cases token with
  | caseLabel => cases h
  | _ => rfl

/-- An event that an instruction is written as. -/
def Event.isOwn : Event → Bool
  | .statement _ | .diagnostic _ _ _ => true
  | _ => false

/-- A plain instruction is written as one event, the same wherever it stands. -/
theorem Walk.write_plain {i : Instruction} (h : i.isPlain = true) (words : Vocabulary) (scope : Scope) :
    ∃ e : Event, e.isOwn = true ∧ (∀ options, e.texts options = i.lines words scope options) ∧
      ∀ (walk : Walk) (setting : Setting) index, setting.words = words → setting.scope = scope →
        walk.write setting index i = walk.emit e := by
  have hinside := Instruction.statement_insideSwitch ((Bool.and_eq_true ..).mp h).2 words scope
  cases hrun : (i.statement words scope false).run none with
  | error error comment =>
      refine ⟨.diagnostic i.position error comment, rfl, ?_, ?_⟩
      · intro options
        rw [Instruction.lines, hrun]
        rfl
      · rintro walk setting index rfl rfl
        simp only [Walk.write, hinside, hrun]
  | ok statement comment =>
      have htext := Instruction.statement_isText h words scope false _ _ _ hrun
      cases statement with
      | plain text terminated =>
          refine ⟨.statement { position := i.position, text, terminated, postComment := comment }, rfl, ?_, ?_⟩
          · intro options
            rw [Instruction.lines, hrun]
            simp [Event.texts, Options.remark]
          · rintro walk setting index rfl rfl
            simp only [Walk.write, hinside, hrun]
            rfl
      | remark text =>
          refine ⟨.statement { position := i.position, text := "", preComment := some text, postComment := comment },
            rfl, ?_, ?_⟩
          · intro options
            rw [Instruction.lines, hrun]
            simp [Event.texts]
          · rintro walk setting index rfl rfl
            simp only [Walk.write, hinside, hrun]
            rfl
      | _ => cases htext

/-- The two sequences are one but for an event in the same place of both. -/
def Swaps (e e' : Event) (events events' : List Event) : Prop :=
  ∃ before after, events = before ++ e :: after ∧ events' = before ++ e' :: after

theorem Swaps.append {e e' : Event} {events events' : List Event} (h : Swaps e e' events events')
    (new : List Event) : Swaps e e' (events ++ new) (events' ++ new) := by
  obtain ⟨before, after, rfl, rfl⟩ := h
  exact ⟨before, after ++ new, by simp, by simp⟩

/-!
### Parallel walks

Labels and blocks are those of one walk. The kind of the last instruction may differ, but only whether it advanced an
iterator is ever asked.
-/

namespace Walk

/-- The operation reads the labels of a walk and does not read its events. It adds events. -/
def Adds (f : Walk → Walk) : Prop :=
  ∀ labels, ∃ (next : LabelTable) (new : List Event), ∀ walk : Walk, walk.labels = labels →
    (f walk).labels = next ∧ (f walk).events.toList = walk.events.toList ++ new

theorem Adds.comp {f g : Walk → Walk} (hf : Adds f) (hg : Adds g) : Adds fun walk => f (g walk) := by
  intro labels
  obtain ⟨middle, first, hfirst⟩ := hg labels
  obtain ⟨next, second, hsecond⟩ := hf middle
  refine ⟨next, first ++ second, fun walk hlabels => ?_⟩
  obtain ⟨hmiddle, hevents⟩ := hfirst walk hlabels
  obtain ⟨hnext, hlast⟩ := hsecond _ hmiddle
  refine ⟨hnext, ?_⟩
  rw [hlast, hevents, List.append_assoc]

theorem adds_writeLabel (position : Nat) : Adds (·.writeLabel position) := by
  intro labels
  cases hpending : labels.pending[position]? with
  | none =>
      refine ⟨labels, [], ?_⟩
      rintro walk rfl
      dsimp only
      rw [writeLabel_of_none hpending]
      exact ⟨rfl, (List.append_nil _).symm⟩
  | some label =>
      refine ⟨labels.write position label, [.label label.name label.position], ?_⟩
      rintro walk rfl
      dsimp only
      rw [writeLabel_of_some hpending]
      exact ⟨rfl, Array.toList_push⟩

theorem adds_say (i : Instruction) (said : Saying) : Adds (·.say i said) := by
  intro labels
  cases said with
  | silence =>
      refine ⟨labels, [], ?_⟩
      rintro walk rfl
      exact ⟨rfl, (List.append_nil _).symm⟩
  | event e =>
      refine ⟨labels, [e], ?_⟩
      rintro walk rfl
      exact ⟨rfl, Array.toList_push⟩
  | goto lead target remark =>
      refine ⟨(labels.target target i.position).2,
        [.statement (gotoLine i lead (labels.target target i.position).1 remark)], ?_⟩
      rintro walk rfl
      exact ⟨rfl, Array.toList_push⟩

/-- What a step adds to the events is read off the labels. -/
theorem Outcome.adds_follow (outcome : Outcome) (i : Instruction) : Adds (outcome.follow i) := by
  have hmarks : Adds fun walk => (walk.resume outcome.blocks outcome.previous).record outcome.marks := by
    intro labels
    refine ⟨labels, outcome.marks.toList, ?_⟩
    rintro walk rfl
    exact ⟨rfl, Array.toList_append⟩
  exact hmarks.comp ((adds_say i outcome.said).comp (adds_writeLabel i.position))

/-- The walk as if an instruction of another kind came before. -/
def after (walk : Walk) (previous : Option Opcode) : Walk := { walk with previous }

/-- The two kinds are the same to an iterator pop. -/
def Interchangeable (previous previous' : Option Opcode) : Prop :=
  previous = some .iteratorNext ↔ previous' = some .iteratorNext

/-- Of the instruction before, a statement asks only whether it advanced an iterator. -/
theorem perform_after {walk : Walk} {previous : Option Opcode} (h : Interchangeable previous walk.previous)
    (body : Body) (index : Nat) (i : Instruction) (statement : Statement) :
    (walk.after previous).perform body index i statement =
      ((walk.perform body index i statement).1, (walk.perform body index i statement).2.after previous) := by
  cases statement with
  | branch target condition =>
      unfold perform branch
      cases i.isDoUntil with
      | true =>
          have hfind : (walk.after previous).blocks.findByCreator? .loop i.position =
            walk.blocks.findByCreator? .loop i.position := rfl
          simp only [hfind]
          cases walk.blocks.findByCreator? .loop i.position <;> rfl
      | false => cases body.isWhileGuard i <;> rfl
  | jump target =>
      unfold perform jump
      have hcloses : (walk.after previous).closesLoop i target = walk.closesLoop i target := rfl
      have helse : (walk.after previous).entersElse i target = walk.entersElse i target := rfl
      have hcontinues : (walk.after previous).continues i target = walk.continues i target := rfl
      have hblocks : (walk.after previous).blocks = walk.blocks := rfl
      simp only [hcloses, helse, hcontinues, hblocks]
      cases walk.closesLoop i target
      · cases isBreak target ((walk.blocks.innermostWhere? (·.isBreakable)).map (·.stop))
        · cases walk.entersElse i target
          · cases walk.continues i target <;> rfl
          · rfl
        · rfl
      · rfl
  | iteratorPop =>
      have hprevious : (walk.after previous).previous = some .iteratorNext ↔ walk.previous = some .iteratorNext := h
      have hblocks : (walk.after previous).blocks = walk.blocks := rfl
      simp only [perform, iteratorPop, hprevious, hblocks]
      split
      · cases walk.blocks.innermostWhere? (· == .forEach) <;> rfl
      · rfl
  | _ => rfl

theorem write_after {walk : Walk} {previous : Option Opcode} (h : Interchangeable previous walk.previous)
    (setting : Setting) (index : Nat) (i : Instruction) :
    (walk.after previous).write setting index i = (walk.write setting index i).after previous := by
  have hblocks : (walk.after previous).blocks = walk.blocks := rfl
  unfold write
  simp only [hblocks]
  split
  · rw [perform_after h]
    rfl
  · rfl

theorem writeLabel_after (walk : Walk) (previous : Option Opcode) (position : Nat) :
    (walk.after previous).writeLabel position = (walk.writeLabel position).after previous := by
  have hlabels : (walk.after previous).labels = walk.labels := rfl
  unfold writeLabel
  rw [hlabels]
  dsimp only
  split <;> rfl

/-- An operation on the blocks does not ask for the instruction before. -/
theorem Framed.apply_after {f : Walk → Walk} (hf : Framed f) (walk : Walk) (previous : Option Opcode) :
    f (walk.after previous) = (f walk).after previous := by
  obtain ⟨next, new, -, heq⟩ := hf walk.blocks
  rw [heq walk rfl, heq (walk.after previous) rfl]
  rfl

theorem Framed.previous {f : Walk → Walk} (hf : Framed f) (walk : Walk) : (f walk).previous = walk.previous := by
  obtain ⟨next, new, -, heq⟩ := hf walk.blocks
  rw [heq walk rfl]

theorem step_after {walk : Walk} {previous : Option Opcode} (h : Interchangeable previous walk.previous)
    (setting : Setting) (i : Instruction) (index : Nat) :
    ∃ later, (walk.after previous).step setting i index = (walk.step setting i index).after later ∧
      Interchangeable later (walk.step setting i index).previous := by
  have hlabel := walk.writeLabel_previous i.position
  have hreconcile := framed_reconcile i.endPosition
  unfold step
  rw [writeLabel_after]
  dsimp only
  split
  · refine ⟨previous, hreconcile.apply_after .., ?_⟩
    rw [hreconcile.previous, hlabel]
    exact h
  · -- Whatever kind came before, that of this instruction takes its place.
    rw [write_after (hlabel.symm ▸ h)]
    refine ⟨some i.opcode, ?_, ?_⟩
    · cases setting.suppressImplicitReturn && setting.body.isImplicitReturn index
      · exact hreconcile.apply_after (((walk.writeLabel i.position).write setting index i).after (some i.opcode)) _
      · exact hreconcile.apply_after ((walk.writeLabel i.position).after (some i.opcode)) _
    · rw [hreconcile.previous]
      exact Iff.rfl

/-- Two walks that differ in one event each, and in nothing that a step reads. -/
structure Parallel (e e' : Event) (walk walk' : Walk) : Prop where
  blocks : walk'.blocks = walk.blocks
  labels : walk'.labels = walk.labels
  previous : Interchangeable walk'.previous walk.previous
  events : Swaps e e' walk.events.toList walk'.events.toList

namespace Parallel

variable {e e' : Event} {walk walk' : Walk}

/-- A step keeps walks in parallel. -/
theorem step (h : Parallel e e' walk walk') (setting : Setting) (i : Instruction) (index : Nat) :
    Parallel e e' (walk.step setting i index) (walk'.step setting i index) := by
  -- The second walk takes the step that it would take after the instruction that the first one passed last.
  obtain ⟨later, hafter, hlater⟩ := step_after h.previous.symm setting i index
  obtain ⟨outcome, -, houtcome⟩ := exists_outcome setting i index walk.blocks walk.previous
  have hstep := houtcome walk rfl rfl
  have hstep' := hafter.symm.trans (houtcome (walk'.after walk.previous) h.blocks rfl)
  obtain ⟨labels, new, hadds⟩ := outcome.adds_follow i walk.labels
  obtain ⟨hlabels, hevents⟩ := hadds walk rfl
  obtain ⟨hlabels', hevents'⟩ := hadds (walk'.after walk.previous) h.labels
  rw [← hstep] at hlabels hevents
  rw [← hstep'] at hlabels' hevents'
  generalize walk.step setting i index = next at *
  generalize walk'.step setting i index = next' at *
  constructor
  · exact (congrArg Walk.blocks hstep').trans (congrArg Walk.blocks hstep).symm
  · exact hlabels'.trans hlabels.symm
  · have hsame : later = next.previous := (congrArg Walk.previous hstep').trans (congrArg Walk.previous hstep).symm
    exact hsame ▸ hlater.symm
  · rw [hevents]
    exact hevents' ▸ h.events.append new

/-- So does a run of steps. -/
theorem run (h : Parallel e e' walk walk') (setting : Setting) (steps : List (Instruction × Nat)) :
    Parallel e e' (steps.foldl (fun walk x => walk.step setting x.1 x.2) walk)
      (steps.foldl (fun walk x => walk.step setting x.1 x.2) walk') := by
  induction steps generalizing walk walk' with
  | nil => exact h
  | cons next rest ih => exact ih (h.step setting next.1 next.2)

theorem finish (h : Parallel e e' walk walk') (setting : Setting) :
    (walk'.finish setting).labels = (walk.finish setting).labels ∧
      Swaps e e' (walk.finish setting).events.toList (walk'.finish setting).events.toList := by
  obtain ⟨last, marks, -, hfinish⟩ := finish_eq setting walk.blocks
  obtain ⟨hlabels, -, hevents⟩ := hfinish walk rfl
  obtain ⟨hlabels', -, hevents'⟩ := hfinish walk' h.blocks
  rw [hlabels, hlabels', hevents, hevents', h.labels]
  exact ⟨rfl, (h.events.append _).append _⟩

end Parallel

end Walk

/-!
### One instruction in place of another
-/

/-- The instruction at an index is plain, and it is written as an event. -/
structure Setting.WritesAt (setting : Setting) (index : Nat) (i : Instruction) (e : Event) : Prop where
  plain : i.isPlain = true
  here : setting.body.instructions[index]? = some i
  written : ∀ walk : Walk, walk.write setting index i = walk.emit e

namespace Setting.WritesAt

variable {setting setting' : Setting} {index : Nat} {i j : Instruction} {e e' : Event}

/-- The step over it: its label, its event, and the markers that are due. -/
theorem step (h : setting.WritesAt index i e) (walk : Walk) :
    walk.step setting i index =
      (((walk.writeLabel i.position).emit e).after (some i.opcode)).reconcile i.endPosition := by
  obtain ⟨hopcode, htoken⟩ := (Bool.and_eq_true ..).mp h.plain
  have hreturn : setting.body.isImplicitReturn index = false := by
    rw [Body.isImplicitReturn, h.here, Option.any_some, Bool.and_eq_false_imp]
    intro hmatch
    generalize i.token = token at htoken hmatch
    cases token with
    | returnValue | returnNothing => cases htoken
    | _ => cases hmatch
  simp only [Walk.step, h.written, hreturn, Opcode.isHidden_of_isPlain hopcode, Bool.and_false, Bool.false_eq_true,
    if_false]
  rfl

theorem opcode_ne_iteratorNext (h : setting.WritesAt index i e) : some i.opcode ≠ some .iteratorNext := by
  intro hnext
  have hplain := h.plain
  rw [Instruction.isPlain, Option.some.inj hnext] at hplain
  cases hplain

/-- From one walk on, two such instructions of the same range lead to parallel walks. -/
theorem parallel (h : setting.WritesAt index i e) (h' : setting'.WritesAt index j e')
    (hposition : j.position = i.position) (hend : j.endPosition = i.endPosition) (walk : Walk) :
    Walk.Parallel e e' (walk.step setting i index) (walk.step setting' j index) := by
  rw [h.step, h'.step, hposition, hend]
  generalize walk.writeLabel i.position = labelled
  obtain ⟨next, marks, -, hreconcile⟩ := Walk.framed_reconcile i.endPosition labelled.blocks
  dsimp only at hreconcile
  rw [hreconcile ((labelled.emit e).after (some i.opcode)) rfl,
    hreconcile ((labelled.emit e').after (some j.opcode)) rfl]
  refine ⟨rfl, rfl, iff_of_false h'.opcode_ne_iteratorNext h.opcode_ne_iteratorNext, labelled.events.toList,
    marks.toList, ?_, ?_⟩
  · simp [Walk.emit, Walk.after]
  · simp [Walk.emit, Walk.after]

end Setting.WritesAt

/-- Bodies that differ in one plain instruction have the same outline. -/
theorem Body.outline_eq_of_replaced {body body' : Body} {earlier later : List Instruction} {i j : Instruction}
    (hbody : body.instructions.toList = earlier ++ i :: later)
    (hbody' : body'.instructions.toList = earlier ++ j :: later) (hdeclared : body'.declaredSize = body.declaredSize)
    (hi : i.isPlain = true) (hj : j.isPlain = true) (hposition : j.position = i.position) (hsize : j.size = i.size) :
    body'.outline = body.outline := by
  have hsame : j.outline = i.outline := by
    rw [Instruction.outline_of_plain hi, Instruction.outline_of_plain hj, hposition, hsize]
  have hinstructions : body'.outline.instructions = body.outline.instructions := by
    apply Array.toList_inj.1
    rw [toList_outline, toList_outline, hbody, hbody', List.map_append, List.map_append, List.map_cons, List.map_cons,
      hsame]
  rw [outline, outline, hdeclared]
  exact congrArg (Body.mk _ _ _ · _) hinstructions

namespace Setting

variable {setting setting' : Setting} {earlier later : List Instruction} {i j : Instruction} {e e' : Event}

/-- Whole walks over bodies that differ in one plain instruction differ in what it is written as. -/
theorem swaps_walk (hsetting : setting.body.instructions.toList = earlier ++ i :: later)
    (hsetting' : setting'.body.instructions.toList = earlier ++ j :: later)
    (houtline : setting'.outline = setting.outline) (h : setting.WritesAt earlier.length i e)
    (h' : setting'.WritesAt earlier.length j e') (hposition : j.position = i.position) (hsize : j.size = i.size)
    (seeds : List Nat) :
    (setting'.walk seeds).labels = (setting.walk seeds).labels ∧
      Swaps e e' (setting.walk seeds).events.toList (setting'.walk seeds).events.toList := by
  have hstep : ∀ (walk : Walk) k index, walk.step setting' k index = walk.step setting k index := by
    intro walk k index
    rw [← Walk.step_outline, houtline, Walk.step_outline]
  have hprepare : Walk.prepare setting' seeds = Walk.prepare setting seeds := by
    rw [← Walk.prepare_outline, houtline, Walk.prepare_outline]
  have hfinish : ∀ walk : Walk, walk.finish setting' = walk.finish setting := by
    intro walk
    rw [← Walk.finish_outline, houtline, Walk.finish_outline]
  have hend : j.endPosition = i.endPosition := congrArg₂ (· + ·) hposition hsize
  unfold walk
  rw [hsetting, hsetting', hfinish, hprepare, List.zipIdx_append, List.zipIdx_append, List.foldl_append,
    List.foldl_append, List.zipIdx_cons, List.zipIdx_cons, List.foldl_cons, List.foldl_cons]
  simp only [hstep, Nat.zero_add]
  have hparallel := h.parallel h' hposition hend
    (earlier.zipIdx.foldl (fun walk x => walk.step setting x.1 x.2) (Walk.prepare setting seeds))
  rw [hstep] at hparallel
  exact (hparallel.run setting _).finish setting

/-- The source is that of the walk with labels at the targets that the first walk missed, if there are any. -/
theorem events_eq_walk (setting : Setting) :
    setting.events = (setting.walk (setting.walk []).labels.missed.toList).events := by
  unfold events
  dsimp only
  split
  · rename_i hempty
    rw [List.isEmpty_iff.1 (Std.TreeSet.isEmpty_toList.trans hempty)]
  · rfl

end Setting

/-!
### Text
-/

/-- Lines at a depth of indentation. -/
def Options.indented (options : Options) (depth : Nat) (lines : List String) : String :=
  String.join (lines.map fun line => String.join (List.replicate depth options.indent) ++ line ++ "\n")

/-- What events write after others hangs on the blocks that these leave open. -/
theorem spans_append (options : Options) (start : Nat) (chain : List OpenBlock) (before : List Event) :
    ∃ last, ∀ rest, spans options start chain (before ++ rest) =
      spans options start chain before ++ spans options start last rest := by
  induction before generalizing chain with
  | nil => exact ⟨chain, fun rest => rfl⟩
  | cons e before ih =>
      obtain ⟨last, hlast⟩ := ih ((e.follow chain).getD chain)
      exact ⟨last, fun rest => congrArg (List.cons _) (hlast rest)⟩

/-- What an instruction is written as stands at the depth of the blocks that are open before it, and leaves them open.
    -/
theorem spans_own {e : Event} (h : e.isOwn = true) (options : Options) (start : Nat) (chain : List OpenBlock)
    (rest : List Event) :
    spans options start chain (e :: rest) =
      (e, options.indented (start + chain.length) (e.texts options)) :: spans options start chain rest := by
  have hrows : e.rows options chain = (e.texts options).map fun text => ⟨chain.length, 0, text⟩ := by
    cases e with
    | statement | diagnostic => rfl
    | _ => cases h
  have hfollow : e.follow chain = some chain := by
    cases e with
    | statement | diagnostic => rfl
    | _ => cases h
  rw [spans, hfollow, hrows, List.map_map]
  rfl

/-- Sequences that differ in what one instruction is written as are laid out as texts that differ in its lines. -/
theorem Swaps.join_spans {e e' : Event} {events events' : List Event} (h : Swaps e e' events events')
    (he : e.isOwn = true) (he' : e'.isOwn = true) (options : Options) (start : Nat) :
    ∃ (before after : String) (depth : Nat),
      String.join ((spans options start [] events).map (·.2)) =
        before ++ options.indented depth (e.texts options) ++ after ∧
      String.join ((spans options start [] events').map (·.2)) =
        before ++ options.indented depth (e'.texts options) ++ after := by
  obtain ⟨before, after, rfl, rfl⟩ := h
  obtain ⟨chain, hchain⟩ := spans_append options start [] before
  refine ⟨String.join ((spans options start [] before).map (·.2)),
    String.join ((spans options start chain after).map (·.2)), start + chain.length, ?_, ?_⟩
  · rw [hchain, spans_own he]
    simp [String.append_assoc]
  · rw [hchain, spans_own he']
    simp [String.append_assoc]

/-- A plain instruction is written as one event wherever it stands in a body. -/
theorem Instruction.exists_writesAt {i : Instruction} (hplain : i.isPlain = true) (words : Vocabulary)
    (context : Context) :
    ∃ e : Event, e.isOwn = true ∧ (∀ options, e.texts options = i.lines words context.scope options) ∧
      ∀ (body : Body) earlier later, body.instructions.toList = earlier ++ i :: later →
        (body.setting words context).WritesAt earlier.length i e := by
  obtain ⟨e, hown, htexts, hwrite⟩ := Walk.write_plain hplain words context.scope
  refine ⟨e, hown, htexts, fun body earlier later hbody => ⟨hplain, ?_, fun walk => hwrite walk _ _ rfl rfl⟩⟩
  rw [Body.setting, ← Array.getElem?_toList, hbody]
  simp

/-- Decoded instructions of plain kinds have tokens to match. -/
theorem isPlain_of_decode {source : Source} {dialect : Dialect} {earlier later : List Instruction} {i : Instruction}
    (h : (source.decode dialect).instructions.toList = earlier ++ i :: later) (hplain : i.opcode.isPlain = true) :
    i.isPlain = true := by
  have hi : i ∈ (source.decode dialect).instructions.toList := by simp [h]
  obtain ⟨place, next, hread⟩ := exists_readInstruction_of_mem_decode (Array.mem_toList_iff.1 hi)
  exact (Bool.and_eq_true ..).mpr ⟨hplain, (readInstruction_conforms hread).token.isPlain hplain⟩

/-- A plain instruction of a decoded body touches no line but its own. Two decoded bodies that are equal but for one
    plain instruction in place of another of the same range, whatever the two are and whether they can be written or
    not, have sources that are equal but for the lines of that instruction, from any layout state on. An instruction
    that cannot be written has one line, the diagnostic. -/
theorem decompile_replaced (source source' : Source) (dialect dialect' : Dialect) (words : Vocabulary)
    (context : Context) (earlier later : List Instruction) (i j : Instruction)
    (hdeclared : source'.declaredSize = source.declaredSize)
    (hinstructions : (source.decode dialect).instructions.toList = earlier ++ i :: later)
    (hinstructions' : (source'.decode dialect').instructions.toList = earlier ++ j :: later)
    (hposition : j.position = i.position) (hsize : j.size = i.size) (hi : i.opcode.isPlain = true)
    (hj : j.opcode.isPlain = true) :
    (∃ before after depth,
      ((source.decode dialect).decompile words context).1 =
        before ++ context.options.indented depth (i.lines words context.scope context.options) ++ after ∧
      ((source'.decode dialect').decompile words context).1 =
        before ++ context.options.indented depth (j.lines words context.scope context.options) ++ after) ∧
      ∀ (k : Instruction) error comment, (k.statement words context.scope false).run none = .error error comment →
        k.lines words context.scope context.options = [error.diagnostic k.position] := by
  have hplain : i.isPlain = true := isPlain_of_decode hinstructions hi
  have hplain' : j.isPlain = true := isPlain_of_decode hinstructions' hj
  have houtline : ((source'.decode dialect').setting words context).outline =
      ((source.decode dialect).setting words context).outline := by
    have hbodies := Body.outline_eq_of_replaced hinstructions hinstructions' hdeclared hplain hplain' hposition hsize
    exact congrArg (Setting.mk · words context.scope context.options.suppressImplicitReturn) hbodies
  obtain ⟨e, hown, htexts, hwrites⟩ := i.exists_writesAt hplain words context
  obtain ⟨e', hown', htexts', hwrites'⟩ := j.exists_writesAt hplain' words context
  have hswaps := Setting.swaps_walk hinstructions hinstructions' houtline (hwrites _ _ _ hinstructions)
    (hwrites' _ _ _ hinstructions') hposition hsize
  constructor
  · -- Both walks miss the same targets, so the same second walk follows.
    rw [Body.decompile, Body.decompile, Setting.events_eq_walk, Setting.events_eq_walk, (hswaps []).1]
    generalize (((source.decode dialect).setting words context).walk []).labels.missed.toList = seeds
    obtain ⟨hpieces, htext⟩ := ((source.decode dialect).setting words context).layOut_walk seeds context
    obtain ⟨hpieces', htext'⟩ := ((source'.decode dialect').setting words context).layOut_walk seeds context
    rw [htext, htext', hpieces, hpieces', ← htexts, ← htexts']
    exact (hswaps seeds).2.join_spans hown hown' _ _
  · intro k error comment hrun
    rw [Instruction.lines, hrun]

/-- A block of three instructions under a condition, and one after it. -/
def guarded (first : List UInt8) : Source where
  declaration := "guarded"
  bytes := [0x07, 0x12, 0x00, 0x27] ++ first ++ [0x26, 0x25, 0x17]
  declaredSize := 19

/-- A call of a function that is not known. -/
def unresolvedCall : Instruction :=
  ⟨⟨0x1C, none⟩, .finalFunction, 4, 12, 4, 8, .call (.final ⟨1⟩)
    [⟨⟨0x2C, none⟩, .intConstByte, 13, 2, 9, 2, .byteConst 5⟩]⟩

/-- A conversion that is not known; it leaves a comment. -/
def unknownCast : Instruction :=
  ⟨⟨0x38, none⟩, .primitiveCast, 4, 12, 4, 8, .primitiveCast 0xFE none
    ⟨⟨0x2D, none⟩, .boolVariable, 6, 10, 6, 6, .boolVariable
      ⟨⟨0x00, none⟩, .localVariable, 7, 9, 7, 5, .variableRef ⟨1⟩⟩⟩⟩

theorem decompile_replaced_unresolvedCall :
    (unresolvedCall.statement noWords {} false).run none = .error (.unresolvedFunction ⟨1⟩) none ∧
      unresolvedCall.lines noWords {} {} = [RenderError.diagnostic (.unresolvedFunction ⟨1⟩) 4] ∧
      unknownCast.lines noWords {} {} = ["Object#1; // unknown cast 0xFE"] ∧
      ∃ before after depth,
        (((guarded [0x1C, 0x01, 0x00, 0x00, 0x00, 0x2C, 0x05, 0x16]).decode delegateDialect).decompile noWords
            (.new {})).1 =
          before ++ ({} : Options).indented depth (unresolvedCall.lines noWords {} {}) ++ after ∧
        (((guarded [0x38, 0xFE, 0x2D, 0x00, 0x01, 0x00, 0x00, 0x00]).decode delegateDialect).decompile noWords
            (.new {})).1 =
          before ++ ({} : Options).indented depth (unknownCast.lines noWords {} {}) ++ after := by
  have hrun : (unresolvedCall.statement noWords {} false).run none = .error (.unresolvedFunction ⟨1⟩) none := rfl
  obtain ⟨htexts, hlines⟩ := decompile_replaced (guarded [0x1C, 0x01, 0x00, 0x00, 0x00, 0x2C, 0x05, 0x16])
    (guarded [0x38, 0xFE, 0x2D, 0x00, 0x01, 0x00, 0x00, 0x00]) delegateDialect delegateDialect noWords (.new {})
    [⟨⟨0x07, none⟩, .jumpIfNot, 0, 4, 0, 4, .jumpIfNot 18 ⟨⟨0x27, none⟩, .boolTrue, 3, 1, 3, 1, .noOperands⟩⟩]
    [⟨⟨0x26, none⟩, .intOne, 16, 1, 12, 1, .noOperands⟩, ⟨⟨0x25, none⟩, .intZero, 17, 1, 13, 1, .noOperands⟩,
      ⟨⟨0x17, none⟩, .selfObject, 18, 1, 14, 1, .noOperands⟩]
    unresolvedCall unknownCast rfl rfl rfl rfl rfl rfl rfl
  exact ⟨hrun, hlines _ _ _ hrun, by decide +kernel, htexts⟩

end ScriptBytecode
