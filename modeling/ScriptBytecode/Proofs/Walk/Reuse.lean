/-
Module: ScriptBytecode.Proofs.Walk.Reuse
Purpose: The layout state that a walk leaves behind can be used again. Whatever is noted in it for a statement comes
  from the last statement that was written, the indentation is back where it started, and nothing else has changed.
  The text of a walk depends on none of the notes it finds. Main statement: a body that is written again in the state
  that it left has the same text and leaves the same state, also when the walk was repeated for missed labels and when
  statements failed.
Main exports: Context.after, Context.layOut_snd, Context.layOut_fst_congr, Context.layOut_after, decompile_reusable
-/
import ScriptBytecode.Proofs.Decoding.Locality
import ScriptBytecode.Proofs.Walk.Formatting
import ScriptBytecode.Proofs.Walk.InPlace

namespace ScriptBytecode

/-- The layout state after events that close what they open. -/
def Context.after (context : Context) (events : List Event) : Context :=
  context.applyPending.withNotes ((lastNotes events).getD context.notes)

namespace Context

/-- A page starts at the indentation that is in force once a pending change has taken effect. -/
theorem level_eq {context : Context} (h : 0 ≤ (context.indent : Int) + context.pendingIndent) :
    (Page.mk context "").level = context.applyPending.indent + ([] : List OpenBlock).length := by
  simp [Page.level, applyPending, Int.toNat_of_nonneg h]

/-- Events that close what they open change nothing of a layout state but the notes. A pending change of the indentation
    has taken effect. -/
theorem layOut_snd {context : Context} {events : Array Event} (hbalanced : openAfter events.toList = some [])
    (hlevel : 0 ≤ (context.indent : Int) + context.pendingIndent) :
    (context.layOut events).2 = context.after events.toList := by
  obtain ⟨-, hlast, -⟩ := foldl_print_spec (level_eq hlevel) hbalanced
  obtain ⟨indent, pendingIndent, hcontext⟩ := foldl_print_context events.toList { context }
  have hindent : (indent : Int) + pendingIndent = context.applyPending.indent := by
    rw [Page.level, hcontext] at hlast
    exact hlast.trans (Int.add_zero _)
  rw [layOut, ← Array.foldl_toList]
  dsimp only
  rw [hcontext, applyPending, hindent, Int.toNat_natCast]
  rfl

/-- The text of events that close what they open depends on the options and on the indentation alone. -/
theorem layOut_fst_congr {context other : Context} {events : Array Event}
    (hbalanced : openAfter events.toList = some [])
    (hlevel : 0 ≤ (context.indent : Int) + context.pendingIndent)
    (hother : (other.indent : Int) + other.pendingIndent = context.indent + context.pendingIndent)
    (hoptions : other.options = context.options) :
    (other.layOut events).1 = (context.layOut events).1 := by
  have hotherLevel : (Page.mk other "").level = context.applyPending.indent + ([] : List OpenBlock).length :=
    hother.trans (level_eq hlevel)
  have hcontextText := (foldl_print_spec (level_eq hlevel) hbalanced).1
  have hotherText := (foldl_print_spec hotherLevel hbalanced).1
  rw [layOut, layOut, ← Array.foldl_toList, ← Array.foldl_toList]
  dsimp only at hcontextText hotherText ⊢
  rw [hcontextText, hotherText, hoptions]

theorem level_after {context : Context} (hlevel : 0 ≤ (context.indent : Int) + context.pendingIndent)
    (events : List Event) : ((context.after events).indent : Int) = context.indent + context.pendingIndent :=
  Int.toNat_of_nonneg hlevel

/-- What events leave, they leave again. -/
theorem after_after (context : Context) (events : List Event) :
    (context.after events).after events = context.after events := by
  have hpending : (context.after events).applyPending =
      context.applyPending.applyPending.withNotes ((lastNotes events).getD context.notes) := rfl
  have hnotes : (lastNotes events).getD (context.after events).notes = (lastNotes events).getD context.notes := by
    unfold after
    cases lastNotes events <;> rfl
  rw [after, hpending, hnotes, applyPending_idem]
  rfl

/-- Events that close what they open, laid out again in the state that they left. -/
theorem layOut_after {context : Context} {events : Array Event} (hbalanced : openAfter events.toList = some [])
    (hlevel : 0 ≤ (context.indent : Int) + context.pendingIndent) :
    (context.after events.toList).layOut events = ((context.layOut events).1, context.after events.toList) := by
  have hafter : ((context.after events.toList).indent : Int) + (context.after events.toList).pendingIndent =
      context.indent + context.pendingIndent := (Int.add_zero _).trans (level_after hlevel _)
  apply Prod.ext
  · exact layOut_fst_congr hbalanced hlevel hafter rfl
  · exact (layOut_snd hbalanced (hafter ▸ hlevel)).trans (context.after_after _)

end Context

/-- The layout state that a walk leaves can be used again. A walk that starts at a level that is not below zero leaves
    the state at this level, with nothing pending, and leaves its options and its scope as they were. What it found
    noted there has no say in the text, so another walk from the state that it left has the same text and leaves that
    state. All of this is so of the walk in place, which changes the scope while it writes, can fail in the middle of
    a statement, and starts again when it has missed labels. -/
theorem decompile_reusable (body : Body) (words : Vocabulary) (context : Context)
    (hlevel : 0 ≤ (context.indent : Int) + context.pendingIndent) :
    let left := (body.decompile words context).2
    (∀ start, body.decompileInPlace words start = body.decompile words start) ∧
      (left.indent : Int) = context.indent + context.pendingIndent ∧ left.pendingIndent = 0 ∧
      left.options = context.options ∧ left.scope = context.scope ∧
      (∀ notes, (body.decompile words (context.withNotes notes)).1 = (body.decompile words context).1) ∧
      body.decompile words left = ((body.decompile words context).1, left) := by
  intro left
  have hbalanced := (body.setting words context).openAfter_events
  have hleft : left = context.after (body.setting words context).events.toList := Context.layOut_snd hbalanced hlevel
  clear_value left
  subst hleft
  refine ⟨body.decompileInPlace_eq words, Context.level_after hlevel _, rfl, rfl, rfl, ?_, ?_⟩
  · exact fun notes => Context.layOut_fst_congr hbalanced hlevel rfl rfl
  · exact Context.layOut_after hbalanced hlevel

/-- A jump to itself, whose label is missed, and an assignment that leaves a remark before it fails in the member of a
    context. -/
def failedAssignment : Source where
  declaration := "failedAssignment"
  bytes := [0x06, 0x00, 0x00, 0x0F, 0x70, 0x16, 0x19, 0x17, 0x00, 0x00, 0x00, 0x00, 0x00, 0x00, 0x00,
    0x1C, 0x05, 0x00, 0x00, 0x00, 0x16]
  declaredSize := 29

/-- A layout state with notes of an earlier statement and a pending change of the indentation. -/
def wornContext : Context where
  options := {}
  indent := 3
  pendingIndent := -2
  preComment := some "before"
  postComment := some "after"
  needsTerminator := true
  scope := { inClass := true }

theorem decompile_reusable_failedAssignment :
    let body := failedAssignment.decode delegateDialect
    let left := (body.decompile noWords wornContext).2
    ((body.setting noWords wornContext).walk []).labels.missed.toList = [0] ∧
      (body.decompile noWords wornContext).1 = "J0x0000:\n\tgoto J0x0000;\n" ++
        "\t// UnresolvedFunction at 0x0003: function object ObjectRef(5) could not be resolved\n" ∧
      left.postComment = some "unresolved native 112" ∧
      0 ≤ (wornContext.indent : Int) + wornContext.pendingIndent ∧
      (∀ start, body.decompileInPlace noWords start = body.decompile noWords start) ∧
      left.indent = 1 ∧ left.pendingIndent = 0 ∧ left.options = {} ∧ left.scope = { inClass := true } ∧
      (∀ notes, (body.decompile noWords (wornContext.withNotes notes)).1 = (body.decompile noWords wornContext).1) ∧
      body.decompile noWords left = ((body.decompile noWords wornContext).1, left) := by
  intro body left
  have hlevel : 0 ≤ (wornContext.indent : Int) + wornContext.pendingIndent := by decide
  obtain ⟨hplace, hindent, hpending, hoptions, hscope, hnotes, hagain⟩ :=
    decompile_reusable body noWords wornContext hlevel
  refine ⟨by decide +kernel, by decide +kernel, by decide +kernel, hlevel, hplace, ?_, hpending, hoptions, hscope,
    hnotes, hagain⟩
  exact Int.ofNat_inj.1 hindent

end ScriptBytecode
