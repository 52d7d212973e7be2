/-
Module: ScriptBytecode.Proofs.Walk.ImplicitReturn
Purpose: The `return;` that the compiler adds at the end of a body. A decoded body has one at most, since nothing that
  may stand behind it is a return. It is written as one line whatever surrounds it, it queues nothing and needs no
  label, so a walk that leaves it out and one that writes it run in step and differ in that line alone. Main
  statement: leaving it out takes one line from the source and nothing else.
Main exports: Instruction.returnLine, Body.isImplicitReturn_unique, Walk.write_implicitReturn, Walk.Spares,
  Walk.Spares.step, Setting.suppressing, Setting.spares_walk, spans_suppressing, decompile_implicitReturn
-/
import ScriptBytecode.Proofs.Body.Shapes
import ScriptBytecode.Proofs.Walk.Containment

namespace ScriptBytecode

/-!
### The instruction
-/

/-- The line of a `return;` without a value. -/
def Instruction.returnLine (i : Instruction) : Line where
  position := i.position
  text := "return"
  terminated := true

theorem Body.isImplicitReturn_iff {body : Body} {index : Nat} :
    body.isImplicitReturn index = true ↔ ∃ i, body.instructions[index]? = some i ∧
      i.token.isBareReturn = true ∧ ∀ j ∈ body.instructions.toList.drop (index + 1), isTail j = true := by
  simp only [isImplicitReturn, Option.any_eq_true, Bool.and_eq_true, List.all_eq_true]
  rfl

/-- A return is of a kind that is written, and that does not stand behind the last statement. -/
theorem Instruction.isTail_of_isBareReturn {i : Instruction} {format : Format} (hsuits : i.token.Suits format i.opcode)
    (hreturn : i.token.isBareReturn = true) : Body.isTail i = false ∧ i.opcode.isHidden = false := by
  unfold Body.isTail
  generalize i.token = token at hsuits hreturn
  cases token with
  | returnValue | returnNothing =>
      rw [Token.Suits] at hsuits
      rw [hsuits]
      exact ⟨rfl, rfl⟩
  | _ => cases hreturn

/-- At most one instruction is the `return;` that the compiler has added. -/
theorem Body.isImplicitReturn_unique {body : Body} {format : Format}
    (hsuits : ∀ i ∈ body.instructions.toList, i.token.Suits format i.opcode) {first second : Nat}
    (hfirst : body.isImplicitReturn first = true) (hsecond : body.isImplicitReturn second = true) :
    first = second := by
  -- What stands behind one of them is no return, so neither stands behind the other.
  have hbehind : ∀ {j k : Nat}, body.isImplicitReturn j = true → body.isImplicitReturn k = true → ¬j < k := by
    intro j k hj hk hlt
    obtain ⟨-, -, -, htail⟩ := isImplicitReturn_iff.1 hj
    obtain ⟨i, hi, hreturn, -⟩ := isImplicitReturn_iff.1 hk
    rw [← Array.getElem?_toList] at hi
    have hmem : i ∈ body.instructions.toList.drop (j + 1) := by
      apply List.mem_of_getElem? (i := k - (j + 1))
      rw [List.getElem?_drop, ← hi]
      congr 1
      omega
    have hcontra := htail i hmem
    rw [(i.isTail_of_isBareReturn (hsuits i (List.mem_of_getElem? hi)) hreturn).1] at hcontra
    cases hcontra
  exact Nat.le_antisymm (Nat.not_lt.1 (hbehind hsecond hfirst)) (Nat.not_lt.1 (hbehind hfirst hsecond))

/-- An empty return is a statement of its own wherever it stands. -/
theorem Instruction.statement_of_isBareReturn {dialect : Dialect} {i : Instruction}
    (hconforms : i.Everywhere (Instruction.Conforms dialect)) (hreturn : i.token.isBareReturn = true)
    (words : Vocabulary) (scope : Scope) (insideSwitch : Bool) :
    (i.statement words scope insideSwitch).run none = .ok (.plain "return" true) none := by
  obtain ⟨-, hoperands⟩ := Instruction.everywhere_iff.1 hconforms
  obtain ⟨code, opcode, position, size, storagePosition, storageSize, token⟩ := i
  cases token with
  | returnNothing object => rfl
  | returnValue value =>
      -- A value of the empty kind has no operands, and so no text.
      have hvalue : value.opcode = .nothing := beq_iff_eq.1 hreturn
      have hsuits := (Instruction.everywhere_iff.1 (hoperands value List.mem_cons_self)).1.token
      obtain ⟨_, _, _, _, _, _, operands⟩ := value
      obtain rfl : operands = .noOperands := hsuits.eq_noOperands (Or.inl hvalue)
      obtain rfl := hvalue
      rfl
  | _ => cases hreturn

/-!
### Walks that leave it out

What the instruction queues and which label it has is the same whether it is written or not, so later steps read the
same state. From it on the two walks differ in one event.
-/

namespace Walk

/-- The `return;` that the compiler has added is one line, whatever surrounds it. -/
theorem write_implicitReturn {dialect : Dialect} {i : Instruction}
    (hconforms : i.Everywhere (Instruction.Conforms dialect)) (hreturn : i.token.isBareReturn = true) (walk : Walk)
    (setting : Setting) (index : Nat) :
    walk.write setting index i = walk.emit (.statement i.returnLine) := by
  simp only [write, Instruction.statement_of_isBareReturn hconforms hreturn]
  rfl

/-- The second walk has spared an event that the first one has recorded, and they differ in nothing else. -/
structure Spares (e : Event) (walk walk' : Walk) : Prop where
  blocks : walk'.blocks = walk.blocks
  labels : walk'.labels = walk.labels
  previous : walk'.previous = walk.previous
  events : ∃ before after, walk.events.toList = before ++ e :: after ∧ walk'.events.toList = before ++ after

namespace Spares

variable {e : Event} {walk walk' : Walk}

/-- A step over another instruction adds the same to both. -/
theorem step (h : Spares e walk walk') (setting : Setting) (i : Instruction) (index : Nat) :
    Spares e (walk.step setting i index) (walk'.step setting i index) := by
  obtain ⟨outcome, -, houtcome⟩ := exists_outcome setting i index walk.blocks walk.previous
  obtain ⟨labels, new, hadds⟩ := outcome.adds_follow i walk.labels
  rw [houtcome walk rfl rfl, houtcome walk' h.blocks h.previous]
  obtain ⟨hlabels, hevents⟩ := hadds walk rfl
  obtain ⟨hlabels', hevents'⟩ := hadds walk' h.labels
  obtain ⟨before, after, hsplit, hsplit'⟩ := h.events
  refine ⟨rfl, hlabels'.trans hlabels.symm, rfl, before, after ++ new, ?_, ?_⟩
  · rw [hevents, hsplit, List.append_assoc, List.cons_append]
  · rw [hevents', hsplit', List.append_assoc]

theorem finish (h : Spares e walk walk') (setting : Setting) :
    (walk'.finish setting).labels = (walk.finish setting).labels ∧
      ∃ before after, (walk.finish setting).events.toList = before ++ e :: after ∧
        (walk'.finish setting).events.toList = before ++ after := by
  obtain ⟨last, marks, -, hfinish⟩ := finish_eq setting walk.blocks
  obtain ⟨hlabels, -, hevents⟩ := hfinish walk rfl
  obtain ⟨hlabels', -, hevents'⟩ := hfinish walk' h.blocks
  obtain ⟨before, after, hsplit, hsplit'⟩ := h.events
  rw [hlabels, hlabels', hevents, hevents', h.labels, hsplit, hsplit']
  refine ⟨rfl, before, after ++ (walk.labels.labelsFrom setting.body.codeEnd).map labelEvent ++ marks.toList, ?_, ?_⟩
  · simp
  · simp

end Spares

end Walk

/-- The setting in which the added `return;` is left out, or written. -/
def Setting.suppressing (setting : Setting) (suppress : Bool) : Setting :=
  { setting with suppressImplicitReturn := suppress }

namespace Setting

variable {setting : Setting} {dialect : Dialect}

/-- The choice matters at the added `return;` alone. -/
theorem step_suppressing {index : Nat} (h : setting.body.isImplicitReturn index = false) (walk : Walk)
    (i : Instruction) (suppress : Bool) :
    walk.step (setting.suppressing suppress) i index = walk.step (setting.suppressing false) i index := by
  have hbody : (setting.suppressing suppress).body = setting.body := rfl
  have hbody' : (setting.suppressing false).body = setting.body := rfl
  have hwrite : ∀ walk : Walk, walk.write (setting.suppressing suppress) index i =
    walk.write (setting.suppressing false) index i := fun _ => rfl
  simp only [Walk.step, hbody, hbody', h, hwrite, Bool.and_false]

/-- The step over it spares its line. -/
theorem spares_step {index : Nat} {i : Instruction} (himplicit : setting.body.isImplicitReturn index = true)
    (hi : setting.body.instructions[index]? = some i) (hconforms : i.Everywhere (Instruction.Conforms dialect))
    (walk : Walk) :
    Walk.Spares (.statement i.returnLine) (walk.step (setting.suppressing false) i index)
      (walk.step (setting.suppressing true) i index) := by
  obtain ⟨j, hj, hreturn, -⟩ := Body.isImplicitReturn_iff.1 himplicit
  obtain rfl : j = i := Option.some.inj (hj.symm.trans hi)
  have hsuits := (Instruction.everywhere_iff.1 hconforms).1.token
  have hshown := (j.isTail_of_isBareReturn hsuits hreturn).2
  have hwritten : walk.step (setting.suppressing false) j index =
      (((walk.writeLabel j.position).emit (.statement j.returnLine)).after (some j.opcode)).reconcile
        j.endPosition := by
    simp only [Walk.step, hshown, Walk.write_implicitReturn hconforms hreturn]
    rfl
  have hspared : walk.step (setting.suppressing true) j index =
      ((walk.writeLabel j.position).after (some j.opcode)).reconcile j.endPosition := by
    have hbody : (setting.suppressing true).body = setting.body := rfl
    simp only [Walk.step, hshown, hbody, himplicit]
    rfl
  rw [hwritten, hspared]
  generalize walk.writeLabel j.position = labelled
  obtain ⟨next, marks, -, hreconcile⟩ := Walk.framed_reconcile j.endPosition labelled.blocks
  dsimp only at hreconcile
  rw [hreconcile ((labelled.emit (.statement j.returnLine)).after (some j.opcode)) rfl,
    hreconcile (labelled.after (some j.opcode)) rfl]
  refine ⟨rfl, rfl, rfl, labelled.events.toList, marks.toList, ?_, ?_⟩
  · simp [Walk.emit, Walk.after]
  · simp [Walk.after]

/-- Up to the added `return;` the choice does not matter. -/
theorem walkTo_suppressing {count : Nat} (h : ∀ index < count, setting.body.isImplicitReturn index = false)
    (seeds : List Nat) :
    (setting.suppressing true).walkTo seeds count = (setting.suppressing false).walkTo seeds count := by
  induction count with
  | zero => rfl
  | succ count ih =>
      have hearlier := ih fun index hindex => h index (Nat.lt_succ_of_lt hindex)
      cases hi : setting.body.instructions.toList[count]? with
      | none =>
          rw [walkTo_succ_of_none (setting.suppressing true) seeds hi,
            walkTo_succ_of_none (setting.suppressing false) seeds hi, hearlier]
      | some i =>
          rw [walkTo_succ (setting.suppressing true) seeds hi, walkTo_succ (setting.suppressing false) seeds hi,
            hearlier, step_suppressing (h count (Nat.lt_succ_self count))]

/-- From the added `return;` on, a walk that leaves it out has spared its line. -/
theorem spares_walkTo {index : Nat} {i : Instruction}
    (hunique : ∀ k, setting.body.isImplicitReturn k = true → k = index)
    (himplicit : setting.body.isImplicitReturn index = true) (hi : setting.body.instructions[index]? = some i)
    (hconforms : i.Everywhere (Instruction.Conforms dialect)) (seeds : List Nat) {count : Nat}
    (hcount : index < count) :
    Walk.Spares (.statement i.returnLine) ((setting.suppressing false).walkTo seeds count)
      ((setting.suppressing true).walkTo seeds count) := by
  have hother : ∀ k, k ≠ index → setting.body.isImplicitReturn k = false := fun k hk =>
    Bool.eq_false_iff.2 fun h => hk (hunique k h)
  induction count, hcount using Nat.le_induction with
  | base =>
      rw [← Array.getElem?_toList] at hi
      rw [walkTo_succ (setting.suppressing true) seeds hi, walkTo_succ (setting.suppressing false) seeds hi,
        walkTo_suppressing fun k hk => hother k (Nat.ne_of_lt hk)]
      exact spares_step himplicit (Array.getElem?_toList.symm.trans hi) hconforms _
  | succ count hcount ih =>
      cases hj : setting.body.instructions.toList[count]? with
      | none =>
          rw [walkTo_succ_of_none (setting.suppressing true) seeds hj,
            walkTo_succ_of_none (setting.suppressing false) seeds hj]
          exact ih
      | some j =>
          rw [walkTo_succ (setting.suppressing true) seeds hj, walkTo_succ (setting.suppressing false) seeds hj,
            step_suppressing (hother count (Nat.ne_of_gt hcount)) _ _ true]
          exact ih.step _ j count

theorem walk_suppressing_eq (setting : Setting) (seeds : List Nat) (suppress : Bool) :
    (setting.suppressing suppress).walk seeds =
      ((setting.suppressing suppress).walkTo seeds setting.body.instructions.size).finish setting := by
  have hlabels : ∀ walk : Walk, walk.writeLastLabels (setting.suppressing suppress) = walk.writeLastLabels setting :=
    fun _ => rfl
  rw [walk_eq_finish, Walk.finish_eq_flush, Walk.finish_eq_flush, Walk.flush, Walk.flush, hlabels]
  rfl

/-- Whole walks miss the same targets, and the one that leaves the `return;` out has spared its line. -/
theorem spares_walk (setting : Setting) {index : Nat} {i : Instruction}
    (hunique : ∀ k, setting.body.isImplicitReturn k = true → k = index)
    (himplicit : setting.body.isImplicitReturn index = true) (hi : setting.body.instructions[index]? = some i)
    (hconforms : i.Everywhere (Instruction.Conforms dialect)) (seeds : List Nat) :
    ((setting.suppressing true).walk seeds).labels = ((setting.suppressing false).walk seeds).labels ∧
      ∃ before after,
        ((setting.suppressing false).walk seeds).events.toList = before ++ .statement i.returnLine :: after ∧
        ((setting.suppressing true).walk seeds).events.toList = before ++ after := by
  have hindex : index < setting.body.instructions.size := (Array.getElem?_eq_some_iff.1 hi).1
  have hspares := spares_walkTo hunique himplicit hi hconforms seeds hindex
  rw [walk_suppressing_eq, walk_suppressing_eq]
  exact hspares.finish setting

/-- Where no `return;` was added, the choice does not matter. -/
theorem walk_suppressing (setting : Setting) (h : ∀ index, setting.body.isImplicitReturn index = false)
    (seeds : List Nat) :
    (setting.suppressing true).walk seeds = (setting.suppressing false).walk seeds := by
  rw [walk_suppressing_eq, walk_suppressing_eq, walkTo_suppressing (fun index _ => h index) seeds]

end Setting

/-!
### Text
-/

/-- The layout state in which the added `return;` is left out, or written. -/
def Context.suppressing (context : Context) (suppress : Bool) : Context :=
  { context with options.suppressImplicitReturn := suppress }

theorem Instruction.texts_returnLine (i : Instruction) (options : Options) :
    (Event.statement i.returnLine).texts options = ["return;"] := by
  simp [Event.texts, Instruction.returnLine, Line.written, Options.remark]

/-- The choice is made by the walk, not by the layout. -/
theorem spans_suppressing (options : Options) (start : Nat) (chain : List OpenBlock) (events : List Event)
    (suppress : Bool) :
    spans { options with suppressImplicitReturn := suppress } start chain events =
      spans options start chain events := by
  induction events generalizing chain with
  | nil => rfl
  | cons e rest ih =>
      have htexts : e.texts { options with suppressImplicitReturn := suppress } = e.texts options := by
        cases e <;> rfl
      rw [spans, spans, ih, Event.rows, Event.rows, htexts]
      rfl

/-- The pieces of a source whose walk writes the added `return;`, or leaves it out. -/
theorem pieces_suppressing (body : Body) (words : Vocabulary) (context : Context) (suppress : Bool) :
    let setting := body.setting words context
    let seeds := ((setting.suppressing suppress).walk []).labels.missed.toList
    let pieces := Page.pieces { context := context.suppressing suppress } (setting.suppressing suppress).events.toList
    pieces = spans context.options ((context.indent : Int) + context.pendingIndent).toNat []
        ((setting.suppressing suppress).walk seeds).events.toList ∧
      (body.decompile words (context.suppressing suppress)).1 = String.join (pieces.map (·.2)) := by
  intro setting seeds pieces
  have hevents : (setting.suppressing suppress).events = ((setting.suppressing suppress).walk seeds).events :=
    Setting.events_eq_walk _
  obtain ⟨hpieces, htext⟩ := (setting.suppressing suppress).layOut_walk seeds (context.suppressing suppress)
  rw [← hevents] at hpieces htext
  refine ⟨?_, htext⟩
  show Page.pieces _ _ = _
  rw [hpieces, hevents]
  exact spans_suppressing ..

/-- Leaving out the `return;` that the compiler has added takes one line from the source and nothing else. A decoded
    body has one such instruction at most. If it has none, the choice makes no difference. If it has one, then from
    any layout state on its line `return;` is among the pieces that the events of the walk add to the text, and all
    other pieces, those of labels, braces and statements, are the same and in the same order when it is left out. -/
theorem decompile_implicitReturn (source : Source) (dialect : Dialect) (words : Vocabulary) (context : Context) :
    let body := source.decode dialect
    let pieces (suppress : Bool) := Page.pieces { context := context.suppressing suppress }
      (body.setting words (context.suppressing suppress)).events.toList
    (∀ suppress, (body.decompile words (context.suppressing suppress)).1 = String.join ((pieces suppress).map (·.2))) ∧
      (∀ j k, body.isImplicitReturn j = true → body.isImplicitReturn k = true → j = k) ∧
      ((∀ k, body.isImplicitReturn k = false) → pieces true = pieces false) ∧
      ∀ k i, body.isImplicitReturn k = true → body.instructions[k]? = some i →
        ∃ before after depth,
          pieces false =
            before ++ (.statement i.returnLine, context.options.indented depth ["return;"]) :: after ∧
          pieces true = before ++ after := by
  intro body pieces
  have hconforms : ∀ i ∈ body.instructions.toList, i.Everywhere (Instruction.Conforms dialect) :=
    fun i hi => decode_everywhere readInstruction_conforms source i (Array.mem_toList_iff.1 hi)
  have hunique : ∀ j k, body.isImplicitReturn j = true → body.isImplicitReturn k = true → j = k :=
    fun j k => Body.isImplicitReturn_unique fun i hi => (Instruction.everywhere_iff.1 (hconforms i hi)).1.token
  have hspans := pieces_suppressing body words context
  refine ⟨fun suppress => (hspans suppress).2, hunique, ?_, ?_⟩
  · intro hnone
    have hsame := (body.setting words context).walk_suppressing hnone
    refine (hspans true).1.trans (Eq.trans ?_ (hspans false).1.symm)
    rw [hsame, hsame]
  · intro k i himplicit hi
    have hmem : i ∈ body.instructions.toList := List.mem_of_getElem? (Array.getElem?_toList.trans hi)
    have hwalk := (body.setting words context).spares_walk (fun j hj => hunique j k hj himplicit)
      himplicit hi (hconforms i hmem)
    obtain ⟨before, after, hwritten, hspared⟩ :=
      (hwalk (((body.setting words context).suppressing false).walk []).labels.missed.toList).2
    -- Both walks miss the same targets, so the same second walk follows.
    have hpieces := (hspans true).1
    rw [(hwalk []).1, hspared] at hpieces
    have hpieces' := (hspans false).1
    rw [hwritten] at hpieces'
    obtain ⟨chain, hchain⟩ := spans_append context.options ((context.indent : Int) + context.pendingIndent).toNat []
      before
    rw [hchain] at hpieces hpieces'
    rw [spans_own rfl, i.texts_returnLine] at hpieces'
    exact ⟨_, _, _, hpieces', hpieces⟩

/-- A block that is never closed, with a jump back to its start and a `return;` inside. -/
def returnInsideIf : Source where
  declaration := "returnInsideIf"
  bytes := [0x07, 0x20, 0x00, 0x27, 0x06, 0x00, 0x00, 0x04, 0x0B, 0x53]
  declaredSize := 10

/-- The `return;` of that body. -/
def returnAtEnd : Instruction :=
  ⟨⟨0x04, none⟩, .returnValue, 7, 2, 7, 2, .returnValue ⟨⟨0x0B, none⟩, .nothing, 8, 1, 8, 1, .noOperands⟩⟩

theorem decompile_implicitReturn_insideIf :
    let body := returnInsideIf.decode delegateDialect
    let pieces (suppress : Bool) := Page.pieces { context := (Context.new {}).suppressing suppress }
      (body.setting noWords ((Context.new {}).suppressing suppress)).events.toList
    body.isImplicitReturn 2 = true ∧ body.instructions[2]? = some returnAtEnd ∧
      (body.decompile noWords ((Context.new {}).suppressing true)).1 =
        "J0x0000:\nif(true)\n\x7b\n\tgoto J0x0000;\n\x7d\n" ∧
      ∃ before after depth,
        pieces false =
          before ++ (.statement returnAtEnd.returnLine, ({} : Options).indented depth ["return;"]) :: after ∧
        pieces true = before ++ after := by
  intro body pieces
  have himplicit : body.isImplicitReturn 2 = true := by decide +kernel
  have hreturn : body.instructions[2]? = some returnAtEnd := rfl
  obtain ⟨-, -, -, hspared⟩ := decompile_implicitReturn returnInsideIf delegateDialect noWords (.new {})
  exact ⟨himplicit, hreturn, by decide +kernel, hspared 2 returnAtEnd himplicit hreturn⟩

end ScriptBytecode
