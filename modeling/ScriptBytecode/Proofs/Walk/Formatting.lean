/-
Module: ScriptBytecode.Proofs.Walk.Formatting
Purpose: Layout options only lay out. The events of a walk are read as a draft, a sequence of passages with the number
  of blocks around each, and no option has a say in it. An option decides on which lines the parts of a passage go,
  how far they are indented, or whether comments are left out. Main statement: the source of a body under all options
  is one draft, laid out.
Main exports: Passage, Event.passages, draftFrom, withoutComments, Options.sheet, Options.typeset, render_rowsAfter,
  Options.typeset_suppressed, decompile_typeset
-/
import ScriptBytecode.Proofs.Walk.Containment

namespace ScriptBytecode

/-- A passage of recovered source, before it is laid out. -/
inductive Passage where
  /-- Braces and what stands beside them, in the order in which they are read: a header, `else` or a footer. -/
  | braces (parts : List String)
  | label (name : String)
  /-- A statement and the comment after it. -/
  | statement (text : String) (remark : Option String)
  | diagnostic (text : String)
  /-- A comment with a line of its own. -/
  | comment (text : String)
deriving Repr, DecidableEq

namespace Passage

/-- The lines of a passage, each with its parts. Comments can be left out, and nothing else can. -/
def lines (suppressComments : Bool) : Passage → List (List String)
  | .braces parts => [parts]
  | .label name => [[name ++ ":"]]
  | .statement text remark =>
    match suppressComments, remark with
    | false, some remark => [[text ++ " // " ++ remark]]
    | _, _ => [[text]]
  | .diagnostic text => [[text]]
  | .comment text => if suppressComments then [] else [["// " ++ text]]

/-- Labels stand one level further out than what surrounds them. -/
def outdent : Passage → Nat
  | .label _ => 1
  | _ => 0

/-- The passage without its comment; a comment alone is gone. -/
def uncommented : Passage → Option Passage
  | .comment _ => none
  | .statement text _ => some (.statement text none)
  | passage => some passage

end Passage

/-- What an event adds to a draft. Arms of a `switch` have no braces, and a statement without text only its comment. -/
def Event.passages : Event → List Passage
  | .opened block header => if block.kind.isLabelLike then [] else [.braces [header, "\x7b"]]
  | .alternative _ => [.braces ["\x7d", "else", "\x7b"]]
  | .closed kind _ footer => if kind.isLabelLike then [] else [.braces ("\x7d" :: footer.toList)]
  | .broke text => [.statement text none]
  | .label name _ => [.label name]
  | .statement line =>
    (line.preComment.map Passage.comment).toList ++
      if line.text.isEmpty then []
      else [.statement (line.text ++ if line.terminated then ";" else "") line.postComment]
  | .diagnostic position error _ => [.diagnostic (error.diagnostic position)]

/-- The passages of a sequence of events that starts inside `depth` blocks, each with the number of blocks around it. -/
def draftFrom (depth : Nat) : List Event → List (Nat × Passage)
  | [] => []
  | e :: rest => e.passages.map (depth - e.outward, ·) ++ draftFrom (depth - e.outward + e.inward) rest

/-- The draft without its comments. All other passages stay, in their order. -/
def withoutComments (draft : List (Nat × Passage)) : List (Nat × Passage) :=
  draft.filterMap fun placed => placed.2.uncommented.map (placed.1, ·)

/-- The brace style decides whether the parts of a line share it or have a line each. -/
def BraceStyle.arrange : BraceStyle → List String → List String
  | .sameLine, parts => [" ".intercalate parts]
  | .nextLine, parts => parts

namespace Options

/-- The lines of a draft before the brace style has a say: the indentation of each, and its parts. -/
def sheet (options : Options) (draft : List (Nat × Passage)) : List (String × List String) :=
  draft.flatMap fun (depth, passage) => (passage.lines options.suppressComments).map fun parts =>
    (String.join (List.replicate (options.initialIndent + depth - passage.outdent) options.indent), parts)

/-- A draft, laid out. -/
def typeset (options : Options) (draft : List (Nat × Passage)) : String :=
  String.join ((options.sheet draft).flatMap fun (pad, parts) =>
    (options.braceStyle.arrange parts).map fun line => pad ++ line ++ "\n")

end Options

/-!
### Lines of a draft
-/

theorem Options.remark_pre (options : Options) (comment : Option String) :
    (options.remark comment).toList = (comment.map Passage.comment).toList.flatMap fun passage =>
      (passage.lines options.suppressComments).flatMap options.braceStyle.arrange := by
  unfold Options.remark
  cases comment <;> cases options.suppressComments <;> cases options.braceStyle <;>
    simp [Passage.lines, BraceStyle.arrange]

theorem Line.written_eq (options : Options) (line : Line) :
    [line.written options] =
      ((Passage.statement (line.text ++ if line.terminated then ";" else "") line.postComment).lines
        options.suppressComments).flatMap options.braceStyle.arrange := by
  have hmark (text : String) : " " ++ ("// " ++ text) = " // " ++ text := by
    rw [← String.append_assoc]
    rfl
  unfold Line.written Options.remark
  cases line.postComment <;> cases options.suppressComments <;> cases options.braceStyle <;>
    simp [Passage.lines, BraceStyle.arrange, String.append_assoc, hmark]

/-- An event writes the lines of its passages. -/
theorem Event.texts_eq (options : Options) (e : Event) :
    e.texts options = e.passages.flatMap fun passage =>
      (passage.lines options.suppressComments).flatMap options.braceStyle.arrange := by
  cases e with
  | opened block header =>
      simp only [texts, passages]
      split
      · rfl
      · unfold Options.openBraces
        cases options.braceStyle <;> simp [Passage.lines, BraceStyle.arrange, String.append_assoc]
  | alternative block =>
      simp only [texts, passages, Options.elseBraces]
      cases options.braceStyle <;> rfl
  | closed kind id footer =>
      simp only [texts, passages]
      split
      · rfl
      · unfold Options.closeBraces
        cases footer <;> cases options.braceStyle <;>
          simp [Passage.lines, BraceStyle.arrange, String.append_assoc]
  | broke text => cases hstyle : options.braceStyle <;> simp [texts, passages, Passage.lines, BraceStyle.arrange]
  | label name position =>
      cases hstyle : options.braceStyle <;> simp [texts, passages, Passage.lines, BraceStyle.arrange]
  | statement line =>
      simp only [texts, passages, List.flatMap_append, options.remark_pre]
      split
      · rfl
      · rw [line.written_eq options]
        simp
  | diagnostic position error comment =>
      cases hstyle : options.braceStyle <;> simp [texts, passages, Passage.lines, BraceStyle.arrange]

/-- Only labels stand out. -/
theorem Event.outdent_of_mem {e : Event} {passage : Passage} (h : passage ∈ e.passages) :
    passage.outdent = e.outdent := by
  cases e with
  | opened block header =>
      simp only [passages] at h
      split at h <;> simp_all [Passage.outdent, outdent]
  | alternative block => simp_all [passages, Passage.outdent, outdent]
  | closed kind id footer =>
      simp only [passages] at h
      split at h <;> simp_all [Passage.outdent, outdent]
  | broke text => simp_all [passages, Passage.outdent, outdent]
  | label name position => simp_all [passages, Passage.outdent, outdent]
  | statement line =>
      simp only [passages, List.mem_append, Option.mem_toList, Option.map_eq_some_iff] at h
      rcases h with ⟨comment, -, rfl⟩ | h
      · rfl
      · split at h <;> simp_all [Passage.outdent, outdent]
  | diagnostic position error comment => simp_all [passages, Passage.outdent, outdent]

/-- The rows of an event are the lines of its passages. -/
theorem Event.render_rows (options : Options) (chain : List OpenBlock) (e : Event) :
    String.join ((e.rows options chain).map (Row.render options options.initialIndent)) =
      options.typeset (e.passages.map (chain.length - e.outward, ·)) := by
  rw [rows, texts_eq, Options.typeset, Options.sheet]
  simp only [List.map_map, List.map_flatMap, List.flatMap_map, List.flatMap_assoc]
  congr 1
  apply List.flatMap_congr
  intro passage hpassage
  apply List.flatMap_congr
  intro parts _
  rw [outdent_of_mem hpassage]
  rfl

theorem Options.typeset_append (options : Options) (draft more : List (Nat × Passage)) :
    options.typeset (draft ++ more) = options.typeset draft ++ options.typeset more := by
  simp [typeset, sheet]

/-- Events whose brackets match write their draft. -/
theorem render_rowsAfter (options : Options) {chain last : List OpenBlock} {events : List Event}
    (h : events.foldlM Event.follow chain = some last) :
    String.join ((rowsAfter options chain events).map (Row.render options options.initialIndent)) =
      options.typeset (draftFrom chain.length events) := by
  induction events generalizing chain with
  | nil => rfl
  | cons e rest ih =>
      rw [List.foldlM_cons] at h
      obtain ⟨next, hfollow, hrest⟩ := Option.bind_eq_some_iff.1 h
      have hlength := (Event.length_of_follow hfollow).2
      rw [rowsAfter, List.map_append, String.join_append, e.render_rows, hfollow, Option.getD_some, ih hrest, hlength,
        draftFrom, Options.typeset_append]

/-!
### Options
-/

/-- To leave comments out is to lay out the draft without them. -/
theorem Options.typeset_suppressed (options : Options) (draft : List (Nat × Passage)) :
    { options with suppressComments := true }.typeset draft =
      { options with suppressComments := false }.typeset (withoutComments draft) := by
  have hsheet : { options with suppressComments := true }.sheet draft =
      { options with suppressComments := false }.sheet (withoutComments draft) := by
    induction draft with
    | nil => rfl
    | cons first rest ih =>
        obtain ⟨depth, passage⟩ := first
        unfold sheet withoutComments at ih ⊢
        rw [List.flatMap_cons, ih, List.filterMap_cons]
        cases passage <;> rfl
  rw [typeset, typeset, hsheet]

/-- With braces on the same line every line of the sheet is one line. -/
theorem Options.typeset_sameLine {options : Options} (h : options.braceStyle = .sameLine)
    (draft : List (Nat × Passage)) :
    options.typeset draft =
      String.join ((options.sheet draft).map fun (pad, parts) => pad ++ " ".intercalate parts ++ "\n") := by
  rw [typeset, h]
  congr 1
  exact List.flatMap_pure_eq_map ..

/-- With braces on the next line every part has a line of its own. -/
theorem Options.typeset_nextLine {options : Options} (h : options.braceStyle = .nextLine)
    (draft : List (Nat × Passage)) :
    options.typeset draft =
      String.join ((options.sheet draft).flatMap fun (pad, parts) => parts.map fun part => pad ++ part ++ "\n") := by
  rw [typeset, h]
  rfl

/-- The events of a walk close every block that they open. -/
theorem Setting.openAfter_events (setting : Setting) : openAfter setting.events.toList = some [] := by
  rw [setting.events_eq_walk]
  have hcontext : (Context.new {}).pendingIndent = 0 := rfl
  exact (setting.wellBracketed _ hcontext).balanced

/-- The text of a walk is its draft, laid out. -/
theorem Setting.layOut_events (setting : Setting) (options : Options) :
    ((Context.new options).layOut setting.events).1 = options.typeset (draftFrom 0 setting.events.toList) := by
  have hcontext : (Context.new options).pendingIndent = 0 := rfl
  have hrows := render_rowsAfter options setting.openAfter_events
  rw [setting.events_eq_walk] at hrows ⊢
  exact (setting.wellBracketed _ hcontext).text.trans hrows

/-- Layout options only lay out. For a body and a choice about the `return;` at the end there is one sequence of
    events, in which every block that opens closes, such that the text under all options is the draft of these events,
    laid out. The brace styles arrange the same lines with the same parts; without comments the text is that of the
    draft from which comments have been taken, and nothing else has. -/
theorem decompile_typeset (body : Body) (words : Vocabulary) (suppressImplicitReturn : Bool) :
    ∃ events : List Event, openAfter events = some [] ∧
      (∀ braceStyle indent suppressComments initialIndent,
        let options : Options := ⟨braceStyle, indent, suppressComments, suppressImplicitReturn, initialIndent⟩
        (body.decompile words (Context.new options)).1 = options.typeset (draftFrom 0 events)) ∧
      (∀ indent suppressComments initialIndent,
        let lines := Options.sheet ⟨.sameLine, indent, suppressComments, suppressImplicitReturn, initialIndent⟩
          (draftFrom 0 events)
        (body.decompile words
            (Context.new ⟨.sameLine, indent, suppressComments, suppressImplicitReturn, initialIndent⟩)).1 =
          String.join (lines.map fun (pad, parts) => pad ++ " ".intercalate parts ++ "\n") ∧
        (body.decompile words
            (Context.new ⟨.nextLine, indent, suppressComments, suppressImplicitReturn, initialIndent⟩)).1 =
          String.join (lines.flatMap fun (pad, parts) => parts.map fun part => pad ++ part ++ "\n")) ∧
      ∀ braceStyle indent initialIndent,
        (body.decompile words (Context.new ⟨braceStyle, indent, true, suppressImplicitReturn, initialIndent⟩)).1 =
          Options.typeset ⟨braceStyle, indent, false, suppressImplicitReturn, initialIndent⟩
            (withoutComments (draftFrom 0 events)) := by
  have htext : ∀ options : Options, options.suppressImplicitReturn = suppressImplicitReturn →
      (body.decompile words (Context.new options)).1 =
        options.typeset (draftFrom 0 (Setting.events ⟨body, words, {}, suppressImplicitReturn⟩).toList) := by
    rintro options rfl
    exact Setting.layOut_events ⟨body, words, {}, options.suppressImplicitReturn⟩ options
  refine ⟨(Setting.events ⟨body, words, {}, suppressImplicitReturn⟩).toList, ?_, ?_, ?_, ?_⟩
  · exact Setting.openAfter_events _
  · intro braceStyle indent suppressComments initialIndent
    exact htext _ rfl
  · intro indent suppressComments initialIndent lines
    rw [htext _ rfl, htext _ rfl, Options.typeset_sameLine rfl, Options.typeset_nextLine rfl]
    exact ⟨rfl, rfl⟩
  · intro braceStyle indent initialIndent
    rw [htext _ rfl]
    exact Options.typeset_suppressed ⟨braceStyle, indent, true, suppressImplicitReturn, initialIndent⟩ _

end ScriptBytecode
