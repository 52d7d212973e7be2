/-
Module: ScriptBytecode.Proofs.Hidden.Stripping
Purpose: Source text of code from which the hidden instructions are taken out. Likeness of events carries over to the
  page: the text is the same but for names of `goto` labels, which are made up from positions, and for the positions in
  diagnostics. Where a setting does not tolerate its hidden instructions, the text can be another one.
Main exports: Stretch, TextsAlike, Page.Alike, Body.strip, Body.stripsTo_strip, decompile_strip
-/
import ScriptBytecode.Proofs.Hidden.Lockstep

namespace ScriptBytecode

/-!
### Texts that differ in positions
-/

/-- A stretch of source text. The name of a `goto` label and a diagnostic hang on a position. -/
inductive Stretch where
  | verbatim (text : String)
  | gotoName (position : Nat)
  | diagnostic (position : Nat) (error : RenderError)

/-- The text of a stretch once positions have moved. -/
def Stretch.text (f : Nat → Nat) : Stretch → String
  | .verbatim text => text
  | .gotoName position => gotoLabelName (f position)
  | .diagnostic position error => error.diagnostic (f position)

/-- Texts that are the same but for the names of `goto` labels and the positions in the given diagnostics. -/
def TextsAlike (f : Nat → Nat) (diagnosed : List (Nat × RenderError)) (text text' : String) : Prop :=
  ∃ stretches : List Stretch, (∀ p error, .diagnostic p error ∈ stretches → (p, error) ∈ diagnosed) ∧
    text = String.join (stretches.map (·.text id)) ∧ text' = String.join (stretches.map (·.text f))

namespace TextsAlike

variable {f : Nat → Nat} {diagnosed : List (Nat × RenderError)} {p : Nat} {text text' : String}

theorem of_stretch (stretch : Stretch) (h : ∀ p error, stretch = .diagnostic p error → (p, error) ∈ diagnosed) :
    TextsAlike f diagnosed (stretch.text id) (stretch.text f) := by
  refine ⟨[stretch], ?_, ?_, ?_⟩
  · intro p error hmem
    exact h p error (List.mem_singleton.1 hmem).symm
  · simp
  · simp

theorem refl (text : String) : TextsAlike f diagnosed text text := of_stretch (.verbatim text) nofun

theorem append {more more' : String} (h : TextsAlike f diagnosed text text')
    (hmore : TextsAlike f diagnosed more more') : TextsAlike f diagnosed (text ++ more) (text' ++ more') := by
  obtain ⟨stretches, hdiagnosed, rfl, rfl⟩ := h
  obtain ⟨others, hothers, rfl, rfl⟩ := hmore
  refine ⟨stretches ++ others, ?_, ?_, ?_⟩
  · intro p error hmem
    rcases List.mem_append.1 hmem with hmem | hmem
    · exact hdiagnosed p error hmem
    · exact hothers p error hmem
  · rw [List.map_append, String.join_append]
  · rw [List.map_append, String.join_append]

theorem of_names {name name' : String} (h : NamesAlike f p name name') : TextsAlike f diagnosed name name' := by
  rcases h with rfl | ⟨rfl, rfl⟩
  · exact refl _
  · exact of_stretch (.gotoName p) nofun

end TextsAlike

/-!
### Pages
-/

/-- Where an event stands for an instruction that cannot be written, its position and why it cannot. -/
def Event.diagnosis? : Event → Option (Nat × RenderError)
  | .diagnostic position error _ => some (position, error)
  | _ => none

namespace Page

/-- Pages in the same layout state whose texts are alike. -/
structure Alike (f : Nat → Nat) (diagnosed : List (Nat × RenderError)) (page page' : Page) : Prop where
  context : page'.context = page.context
  text : TextsAlike f diagnosed page.text page'.text

namespace Alike

variable {f : Nat → Nat} {diagnosed : List (Nat × RenderError)} {page page' : Page} (h : page.Alike f diagnosed page')

include h

theorem line {text text' : String} (htext : TextsAlike f diagnosed text text') :
    (page.line text).Alike f diagnosed (page'.line text') := by
  constructor
  · simp only [Page.line, h.context]
  · simp only [Page.line, h.context]
    exact ((h.text.append (.refl _)).append htext).append (.refl _)

theorem label {name name' : String} (hname : TextsAlike f diagnosed name name') :
    (page.label name).Alike f diagnosed (page'.label name') := by
  constructor
  · simp only [Page.label, h.context]
  · simp only [Page.label, h.context]
    exact ((h.text.append (.refl _)).append hname).append (.refl _)

theorem shift (delta : Int) : (page.shift delta).Alike f diagnosed (page'.shift delta) :=
  ⟨by simp only [Page.shift, h.context], h.text⟩

theorem comment (text : Option String) : (page.comment text).Alike f diagnosed (page'.comment text) := by
  unfold Page.comment
  rw [h.context]
  split
  · split
    · exact h
    · exact h.line (.refl _)
  · exact h

/-- Lines whose texts are alike, and are both empty or neither, have the same effect. -/
theorem statement (line line' : Line) (htext : TextsAlike f diagnosed line.text line'.text)
    (hempty : line'.text.isEmpty = line.text.isEmpty) (hterminated : line'.terminated = line.terminated)
    (hpre : line'.preComment = line.preComment) (hpost : line'.postComment = line.postComment) :
    (page.statement line).Alike f diagnosed (page'.statement line') := by
  have hcomment := h.comment line.preComment
  unfold Page.statement
  dsimp only
  rw [hempty, hterminated, hpre, hpost, hcomment.context]
  split
  · exact ⟨by simp only [hcomment.context], hcomment.text⟩
  · have hline : ∀ terminator remark : String, Alike f diagnosed
        ((page.comment line.preComment).line (line.text ++ terminator ++ remark))
        ((page'.comment line.preComment).line (line'.text ++ terminator ++ remark)) :=
      fun _ _ => hcomment.line ((htext.append (.refl _)).append (.refl _))
    exact ⟨by simp only [Page.line, hcomment.context], (hline _ _).text⟩

theorem openBrace (header : String) : (page.openBrace header).Alike f diagnosed (page'.openBrace header) := by
  unfold Page.openBrace
  rw [h.context]
  split
  · exact h.line (.refl _)
  · exact (h.line (.refl _)).line (.refl _)

theorem closeBrace (footer : Option String) : (page.closeBrace footer).Alike f diagnosed (page'.closeBrace footer) := by
  unfold Page.closeBrace
  rw [h.context]
  split
  · exact h.line (.refl _)
  · exact h.line (.refl _)
  · exact (h.line (.refl _)).line (.refl _)

theorem elseBraces : page.elseBraces.Alike f diagnosed page'.elseBraces := by
  unfold Page.elseBraces
  rw [h.context]
  split
  · exact h.line (.refl _)
  · exact ((h.line (.refl _)).line (.refl _)).line (.refl _)

/-- What comes from a marker looks the same wherever the block stands. -/
theorem mark {e : Event} (he : e.fromMarker = true) :
    (page.print e).Alike f diagnosed (page'.print (e.relocate f)) := by
  cases e with
  | opened block header =>
      change (if block.kind.isLabelLike then page.shift 1 else (page.openBrace header).shift 1).Alike f diagnosed
        (if block.kind.isLabelLike then page'.shift 1 else (page'.openBrace header).shift 1)
      split
      · exact h.shift 1
      · exact (h.openBrace header).shift 1
  | alternative block => exact ((h.shift (-1)).elseBraces).shift 1
  | closed kind id footer =>
      simp only [Page.print, Event.relocate]
      split
      · exact h.shift (-1)
      · exact (h.shift (-1)).closeBrace footer
  | broke text => exact h.line (.refl text)
  | label name position => cases he
  | statement line => cases he
  | diagnostic position error postComment => cases he

theorem diagnostic {p : Nat} {error : RenderError} (hdiagnosed : (p, error) ∈ diagnosed) (postComment : Option String) :
    (page.diagnostic p error postComment).Alike f diagnosed (page'.diagnostic (f p) error postComment) := by
  have htext : TextsAlike f diagnosed (error.diagnostic p) (error.diagnostic (f p)) := by
    apply TextsAlike.of_stretch (.diagnostic p error)
    rintro _ _ ⟨⟩
    exact hdiagnosed
  have hline := h.line htext
  exact ⟨by simp only [Page.diagnostic, Page.line, h.context], hline.text⟩

/-- Events that are alike keep pages alike. -/
theorem print {e e' : Event} (he : e.Alike f e') (hdiagnosed : ∀ x, e.diagnosis? = some x → x ∈ diagnosed) :
    (page.print e).Alike f diagnosed (page'.print e') := by
  cases he with
  | mark hmark => exact h.mark hmark
  | label hnames => exact h.label (.of_names hnames)
  | line line => exact h.statement line _ (.refl _) rfl rfl rfl rfl
  | @goto p name name' hnames i i' lead remark =>
      have hshown : ∀ name : String, (lead ++ "goto " ++ name).isEmpty = false := by simp
      have htext : TextsAlike f diagnosed (lead ++ "goto " ++ name) (lead ++ "goto " ++ name') :=
        (TextsAlike.refl _).append (.of_names hnames)
      exact h.statement (Walk.gotoLine i lead name remark) (Walk.gotoLine i' lead name' remark) htext
        ((hshown name').trans (hshown name).symm) rfl rfl rfl
  | diagnostic p error remark => exact h.diagnostic (hdiagnosed _ rfl) remark

end Alike

end Page

/-!
### Bodies
-/

/-- The instructions of a recovered source that cannot be written, by position, and why they cannot. -/
def Setting.diagnosed (setting : Setting) : List (Nat × RenderError) :=
  setting.events.toList.filterMap Event.diagnosis?

namespace Body

variable {body : Body}

/-- The body without its hidden instructions. Every position moves to where the shown instructions before it end. -/
def strip (body : Body) : Body :=
  { body with
    declaredSize := body.compact body.declaredSize
    instructions := (body.shown.map fun i =>
      { i with position := body.compact i.position, token := i.token.retarget body.compact }).toArray }

end Body

end ScriptBytecode
