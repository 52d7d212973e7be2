/-
Module: ScriptBytecode.Proofs.Expression.Legibility
Purpose: Texts of different operations differ. Unary operators stand next to their operands without a blank, and
  comparisons are written without parentheses, so this needs conditions: comparisons stand where a call of their
  operator would need no parentheses, no operator stands after an operand with one before it, and no `-` stands before
  another. Under them the text can be taken apart into its marks, and these read as one tree. Main statement: trees of
  core operators over variables that are written alike are alike. Without the conditions they need not be.
Main exports: OperatorTree.shape, OperatorTree.IsCore, OperatorTree.Legible, Spaced, Spaced.unique, expression_injective
-/
import ScriptBytecode.Proofs.Expression.Operations

namespace ScriptBytecode

variable {α β : Type}

/-!
### Trees over names
-/

/-- The tree with other leaves. -/
def OperatorTree.map (f : α → β) : OperatorTree α → OperatorTree β
  | .leaf value => .leaf (f value)
  | .binary form name precedence lhs rhs => .binary form name precedence (lhs.map f) (rhs.map f)
  | .before name operand => .before name (operand.map f)
  | .after name operand => .after name (operand.map f)

/-- The mark with another leaf. -/
def Mark.map (f : α → β) : Mark α → Mark β
  | .leaf value => .leaf (f value)
  | .between name precedence => .between name precedence
  | .before name => .before name
  | .after name => .after name
  | .opening => .opening
  | .closing => .closing

theorem Phrase.map {rank : Rank} {marks : List (Mark α)} {tree : OperatorTree α} (h : Phrase rank marks tree)
    (f : α → β) : Phrase rank (marks.map (·.map f)) (tree.map f) := by
  induction h with
  | leaf => exact .leaf
  | group _ ih =>
      rw [List.map_cons, List.map_append]
      exact .group ih
  | after _ ih =>
      rw [List.map_append]
      exact .after ih
  | before hrank _ ih => exact .before hrank ih
  | binary hbound _ _ ihleft ihright =>
      rw [List.map_append, List.map_cons]
      exact .binary hbound ihleft ihright

theorem Mark.text_map (f : α → String) (mark : Mark α) : (mark.map f).text id = mark.text f := by
  cases mark <;> rfl

theorem spell_map (f : α → String) (marks : List (Mark α)) : spell id (marks.map (·.map f)) = spell f marks := by
  rw [spell, spell, List.map_map]
  exact congrArg String.join (List.map_congr_left fun mark _ => mark.text_map f)

/-!
### Core operators
-/

/-- An operator of the core table. -/
def IsCoreOperator (style : NativeStyle) (name : String) (precedence : Nat) : Prop :=
  ∃ entry ∈ NativeTable.coreEntries, entry.2 = ⟨name, style, precedence⟩

/-- Precedence of a binary operator of the core table. -/
def corePrecedence? (name : String) : Option Nat :=
  (NativeTable.coreEntries.find? fun entry => entry.2.style == .operator && entry.2.name == name).map (·.2.precedence)

/-- What holds of every entry of the core table holds of its operators. -/
theorem IsCoreOperator.of_all {style : NativeStyle} {name : String} {precedence : Nat}
    (h : IsCoreOperator style name precedence) (good : NativeFunction → Bool)
    (hgood : NativeTable.coreEntries.all (fun entry => good entry.2) = true) :
    good ⟨name, style, precedence⟩ = true := by
  obtain ⟨entry, hmem, heq⟩ := h
  have hentry := List.all_eq_true.1 hgood entry hmem
  rwa [heq] at hentry

/-- Core operators of one name have one precedence. -/
theorem IsCoreOperator.corePrecedence_eq {name : String} {precedence : Nat}
    (h : IsCoreOperator .operator name precedence) : corePrecedence? name = some precedence := by
  have hgood := h.of_all
    (fun native => native.style != .operator || corePrecedence? native.name == some native.precedence)
    (by decide +kernel)
  simpa using hgood

/-- A binary operator of the core table holds no blank. -/
theorem IsCoreOperator.blankless {name : String} {precedence : Nat} (h : IsCoreOperator .operator name precedence) :
    ∀ letter ∈ name.toList, (letter != ' ') = true := by
  have hgood := h.of_all (fun native => native.style != .operator || native.name.toList.all (· != ' '))
    (by decide +kernel)
  simpa using hgood

theorem IsCoreOperator.before_cases {name : String} {precedence : Nat}
    (h : IsCoreOperator .preOperator name precedence) :
    name = "!" ∨ name = "++" ∨ name = "--" ∨ name = "~" ∨ name = "-" := by
  have hgood := h.of_all
    (fun native => native.style != .preOperator || ["!", "++", "--", "~", "-"].contains native.name)
    (by decide +kernel)
  simpa using hgood

/-- The first letter tells operators before an operand apart, but for `-` and `--`. -/
theorem IsCoreOperator.before_eq_or {name name' : String} {precedence precedence' : Nat}
    (h : IsCoreOperator .preOperator name precedence) (h' : IsCoreOperator .preOperator name' precedence')
    {rest rest' : List Char} (heq : name.toList ++ rest = name'.toList ++ rest') :
    name = name' ∨ name = "-" ∧ name' = "--" ∨ name = "--" ∧ name' = "-" := by
  have hhead := congrArg List.head? heq
  rcases h.before_cases with rfl | rfl | rfl | rfl | rfl <;>
  rcases h'.before_cases with rfl | rfl | rfl | rfl | rfl <;> simp at hhead ⊢

theorem IsCoreOperator.after_cases {name : String} {precedence : Nat}
    (h : IsCoreOperator .postOperator name precedence) : name = "++" ∨ name = "--" := by
  have hgood := h.of_all (fun native => native.style != .postOperator || ["++", "--"].contains native.name)
    (by decide +kernel)
  simpa using hgood

/-!
### Taking a text apart
-/

/-- Letters of variables, with what leads to their defaults. -/
def isWordLetter (letter : Char) : Bool := letter.isAlphanum || letter == '_' || letter == '.'

/-- The text is a word. -/
def IsWord (text : String) : Prop := text ≠ "" ∧ ∀ letter ∈ text.toList, isWordLetter letter = true

/-- Marks that can be told apart in a text. Where an operand is due (`true`) a leaf, an operator before it or an opening
    parenthesis stands, and else what follows an operand. No `-` stands before a `-` or `--`. -/
inductive Spaced : Bool → List (Mark String) → Prop where
  | done : Spaced false []
  | leaf {text : String} {marks : List (Mark String)} (hword : IsWord text) (rest : Spaced false marks) :
      Spaced true (.leaf text :: marks)
  | before {name : String} {marks : List (Mark String)} (hname : IsCoreOperator .preOperator name 0)
      (hminus : name = "-" → ∀ other tail, marks = .before other :: tail → other ≠ "-" ∧ other ≠ "--")
      (rest : Spaced true marks) : Spaced true (.before name :: marks)
  | opening {marks : List (Mark String)} (rest : Spaced true marks) : Spaced true (.opening :: marks)
  | between {name : String} {precedence : Nat} {marks : List (Mark String)}
      (hname : IsCoreOperator .operator name precedence) (rest : Spaced true marks) :
      Spaced false (.between name precedence :: marks)
  | after {name : String} {marks : List (Mark String)} (hname : IsCoreOperator .postOperator name 0)
      (rest : Spaced false marks) : Spaced false (.after name :: marks)
  | closing {marks : List (Mark String)} (rest : Spaced false marks) : Spaced false (.closing :: marks)

/-- Letters of a sequence of marks. -/
def letters (marks : List (Mark String)) : List Char := (spell id marks).toList

theorem letters_cons (mark : Mark String) (marks : List (Mark String)) :
    letters (mark :: marks) = (mark.text id).toList ++ letters marks := by
  rw [letters, spell_cons, String.toList_append]
  rfl

theorem letters_between (name : String) (precedence : Nat) (marks : List (Mark String)) :
    letters (.between name precedence :: marks) = ' ' :: (name.toList ++ ' ' :: letters marks) := by
  rw [letters_cons, Mark.text]
  simp only [toString, String.toList_append, List.append_assoc]
  rfl

/-- An operator of the core table is not parted from its operand. -/
theorem letters_before {name : String} {precedence : Nat} (h : IsCoreOperator .preOperator name precedence)
    (marks : List (Mark String)) : letters (.before name :: marks) = name.toList ++ letters marks := by
  rw [letters_cons]
  rcases h.before_cases with rfl | rfl | rfl | rfl | rfl <;> rfl

theorem letters_after {name : String} {precedence : Nat} (h : IsCoreOperator .postOperator name precedence)
    (marks : List (Mark String)) : letters (.after name :: marks) = name.toList ++ letters marks := by
  rw [letters_cons]
  rcases h.after_cases with rfl | rfl <;> rfl

/-- Two texts whose first stretches of one kind of letters end where other letters begin part alike. -/
theorem append_inj_of_stretch {kind : Char → Bool} {first first' rest rest' : List Char}
    (hfirst : ∀ letter ∈ first, kind letter = true) (hfirst' : ∀ letter ∈ first', kind letter = true)
    (hrest : rest.head?.all (!kind ·) = true) (hrest' : rest'.head?.all (!kind ·) = true)
    (heq : first ++ rest = first' ++ rest') : first = first' ∧ rest = rest' := by
  have htake : ∀ {stretch tail : List Char}, (∀ letter ∈ stretch, kind letter = true) →
      tail.head?.all (!kind ·) = true → (stretch ++ tail).takeWhile kind = stretch := by
    intro stretch tail hstretch htail
    rw [List.takeWhile_append_of_pos hstretch]
    cases tail with
    | nil => simp
    | cons letter tail =>
        have hletter : kind letter = false := by simpa using htail
        simp [hletter]
  have hsame : first = first' := by rw [← htake hfirst hrest, heq, htake hfirst' hrest']
  subst hsame
  exact ⟨rfl, List.append_cancel_left heq⟩

/-- The mark without what it carries. -/
def Mark.kind : Mark α → Mark Unit
  | .leaf _ => .leaf ()
  | .between _ _ => .between "" 0
  | .before _ => .before ""
  | .after _ => .after ""
  | .opening => .opening
  | .closing => .closing

/-- Which mark a letter begins. -/
def beginning (isDue : Bool) (letter : Char) : Mark Unit :=
  if letter = '(' then .opening
  else if letter = ')' then .closing
  else if letter = ' ' then .between "" 0
  else if isWordLetter letter then .leaf ()
  else if isDue then .before ""
  else .after ""

theorem beginning_of_isWordLetter {letter : Char} (h : isWordLetter letter = true) (isDue : Bool) :
    beginning isDue letter = .leaf () := by
  have hparts : letter ≠ '(' ∧ letter ≠ ')' ∧ letter ≠ ' ' := by
    refine ⟨?_, ?_, ?_⟩ <;> rintro rfl <;> cases h
  simp [beginning, hparts, h]

/-- The first letter says which mark stands first. -/
theorem Spaced.beginning_eq {isDue : Bool} {marks : List (Mark String)} (h : Spaced isDue marks) :
    (letters marks).head?.map (beginning isDue) = marks.head?.map Mark.kind := by
  cases h with
  | done => rfl
  | @leaf text marks hword rest =>
      rw [letters_cons, Mark.text]
      cases hletters : text.toList with
      | nil => exact absurd (String.toList_eq_nil_iff.1 hletters) hword.1
      | cons letter tail =>
          have hletter := hword.2 letter (hletters ▸ List.mem_cons_self)
          simp [hletters, beginning_of_isWordLetter hletter, Mark.kind]
  | before hname hminus rest =>
      rw [letters_before hname]
      rcases hname.before_cases with rfl | rfl | rfl | rfl | rfl <;> rfl
  | opening rest =>
      rw [letters_cons]
      rfl
  | between hname rest =>
      rw [letters_between]
      rfl
  | after hname rest =>
      rw [letters_after hname]
      rcases hname.after_cases with rfl | rfl <;> rfl
  | closing rest =>
      rw [letters_cons]
      rfl

theorem Spaced.kind_eq {isDue : Bool} {marks marks' : List (Mark String)} (h : Spaced isDue marks)
    (h' : Spaced isDue marks') (heq : letters marks = letters marks') :
    marks.head?.map Mark.kind = marks'.head?.map Mark.kind := by
  rw [← h.beginning_eq, heq, h'.beginning_eq]

/-- No word goes on behind an operand. -/
theorem Spaced.head_letters {marks : List (Mark String)} (h : Spaced false marks) :
    (letters marks).head?.all (!isWordLetter ·) = true := by
  cases hletters : (letters marks).head? with
  | none => rfl
  | some letter =>
      cases hword : isWordLetter letter with
      | false => simp [hword]
      | true =>
          have hkind := h.beginning_eq
          rw [hletters, Option.map_some, beginning_of_isWordLetter hword] at hkind
          cases h <;> cases hkind

/-- A text that begins with `-` where an operand is due begins with an operator that does. -/
theorem Spaced.before_of_minus {marks : List (Mark String)} (h : Spaced true marks)
    (hhead : (letters marks).head? = some '-') :
    ∃ other tail, marks = .before other :: tail ∧ (other = "-" ∨ other = "--") := by
  have hkind := h.beginning_eq
  rw [hhead] at hkind
  cases h with
  | leaf hword rest => cases hkind
  | opening rest => cases hkind
  | @before name marks hname hminus rest =>
      refine ⟨name, marks, rfl, ?_⟩
      rw [letters_before hname] at hhead
      rcases hname.before_cases with rfl | rfl | rfl | rfl | rfl <;> simp at hhead ⊢

/-- Of two operators that a text begins with neither goes on where the other ends. -/
theorem Spaced.not_longer {marks marks' : List (Mark String)} (h : Spaced true marks)
    (hminus : ∀ other tail, marks = .before other :: tail → other ≠ "-" ∧ other ≠ "--")
    (heq : "-".toList ++ letters marks = "--".toList ++ letters marks') : False := by
  have hletters : letters marks = '-' :: letters marks' := List.cons.inj heq |>.2
  obtain ⟨other, tail, hmarks, hother⟩ := h.before_of_minus (by rw [hletters]; rfl)
  obtain ⟨hne, hne'⟩ := hminus other tail hmarks
  exact hother.elim hne hne'

/-- A text is spelled from one sequence of spaced marks only. -/
theorem Spaced.unique {isDue : Bool} {marks : List (Mark String)} (h : Spaced isDue marks) :
    ∀ {marks' : List (Mark String)}, Spaced isDue marks' → letters marks = letters marks' → marks = marks' := by
  induction h with
  | done =>
      intro marks' h' heq
      have hkind := Spaced.done.kind_eq h' heq
      cases h' with
      | done => rfl
      | _ => cases hkind
  | @leaf text marks hword rest ih =>
      intro marks' h' heq
      have hkind := (Spaced.leaf hword rest).kind_eq h' heq
      cases h' with
      | leaf hword' rest' =>
          rw [letters_cons, letters_cons] at heq
          obtain ⟨htext, hrest⟩ :=
            append_inj_of_stretch hword.2 hword'.2 rest.head_letters rest'.head_letters heq
          rw [String.toList_inj.1 htext, ih rest' hrest]
      | _ => cases hkind
  | @before name marks hname hminus rest ih =>
      intro marks' h' heq
      have hkind := (Spaced.before hname hminus rest).kind_eq h' heq
      cases h' with
      | @before name' marks' hname' hminus' rest' =>
          rw [letters_before hname, letters_before hname'] at heq
          rcases hname.before_eq_or hname' heq with rfl | ⟨rfl, rfl⟩ | ⟨rfl, rfl⟩
          · rw [ih rest' (List.append_cancel_left heq)]
          · exact (rest.not_longer (hminus rfl) heq).elim
          · exact (rest'.not_longer (hminus' rfl) heq.symm).elim
      | _ => cases hkind
  | @opening marks rest ih =>
      intro marks' h' heq
      have hkind := (Spaced.opening rest).kind_eq h' heq
      cases h' with
      | opening rest' =>
          rw [letters_cons, letters_cons] at heq
          rw [ih rest' (List.append_cancel_left heq)]
      | _ => cases hkind
  | @between name precedence marks hname rest ih =>
      intro marks' h' heq
      have hkind := (Spaced.between hname rest).kind_eq h' heq
      cases h' with
      | between hname' rest' =>
          rw [letters_between, letters_between] at heq
          obtain ⟨hsame, hrest⟩ := append_inj_of_stretch hname.blankless hname'.blankless rfl rfl (List.cons.inj heq).2
          obtain rfl := String.toList_inj.1 hsame
          obtain rfl := Option.some.inj (hname.corePrecedence_eq.symm.trans hname'.corePrecedence_eq)
          rw [ih rest' (List.cons.inj hrest).2]
      | _ => cases hkind
  | @after name marks hname rest ih =>
      intro marks' h' heq
      have hkind := (Spaced.after hname rest).kind_eq h' heq
      cases h' with
      | @after name' marks' hname' rest' =>
          rw [letters_after hname, letters_after hname'] at heq
          have hsame : name = name' := by
            rcases hname.after_cases with rfl | rfl <;> rcases hname'.after_cases with rfl | rfl <;>
            first
              | rfl
              | cases heq
          subst hsame
          rw [ih rest' (List.append_cancel_left heq)]
      | _ => cases hkind
  | @closing marks rest ih =>
      intro marks' h' heq
      have hkind := (Spaced.closing rest).kind_eq h' heq
      cases h' with
      | closing rest' =>
          rw [letters_cons, letters_cons] at heq
          rw [ih rest' (List.append_cancel_left heq)]
      | _ => cases hkind

/-!
### Legible trees
-/

/-- A name of letters, digits and underscores. -/
def IsPlainName (name : String) : Prop :=
  name ≠ "" ∧ ∀ letter ∈ name.toList, (letter.isAlphanum || letter == '_') = true

/-- A variable with a plain name. -/
def Instruction.IsPlainVariable (words : Vocabulary) (i : Instruction) : Prop :=
  ∃ object, i.token = .variableRef object ∧ IsPlainName (words.symbols.objectText object)

theorem IsPlainName.isWord {name : String} (h : IsPlainName name) : IsWord name := by
  refine ⟨h.1, fun letter hmem => ?_⟩
  rw [isWordLetter, h.2 letter hmem, Bool.true_or]

theorem IsPlainName.isWord_default {name : String} (h : IsPlainName name) : IsWord s!"default.{name}" := by
  have hletters : (s!"default.{name}").toList = "default.".toList ++ name.toList := String.toList_append
  constructor
  · intro hempty
    rw [hempty] at hletters
    cases hletters
  · intro letter hmem
    rw [hletters, List.mem_append] at hmem
    rcases hmem with hmem | hmem
    · exact List.all_eq_true.1 (by decide : "default.".toList.all isWordLetter = true) letter hmem
    · exact h.isWord.2 letter hmem

/-- A variable is written as a word. -/
theorem Instruction.IsPlainVariable.isWord {words : Vocabulary} {i : Instruction} (h : i.IsPlainVariable words) :
    IsWord (i.atomText words) := by
  obtain ⟨code, opcode, position, size, storagePosition, storageSize, token⟩ := i
  obtain ⟨object, rfl, hname⟩ := h
  by_cases hdefault : opcode = .defaultVariable
  · have htext := hname.isWord_default
    simpa [atomText, expression, hdefault, EStateM.run, pure, EStateM.pure] using htext
  · have htext := hname.isWord
    simpa [atomText, expression, hdefault, EStateM.run, pure, EStateM.pure] using htext

namespace OperatorTree

/-- The tree is built from operators of the core table over variables with plain names. -/
def IsCore (words : Vocabulary) : OperatorTree Instruction → Prop
  | .leaf i => i.IsPlainVariable words
  | .binary _ name precedence lhs rhs =>
    IsCoreOperator .operator name precedence ∧ lhs.IsCore words ∧ rhs.IsCore words
  | .before name operand => IsCoreOperator .preOperator name 0 ∧ operand.IsCore words
  | .after name operand => IsCoreOperator .postOperator name 0 ∧ operand.IsCore words

/-- No `-` stands directly before another, where the two would look like one operator. -/
def Separate : OperatorTree α → Prop
  | .leaf _ => True
  | .binary _ _ _ lhs rhs => lhs.Separate ∧ rhs.Separate
  | .before name operand =>
    operand.Separate ∧ (name = "-" → ∀ other inner, operand = .before other inner → other ≠ "-" ∧ other ≠ "--")
  | .after _ operand => operand.Separate

/-- The tree can be told from its text. -/
structure Legible (tree : OperatorTree α) : Prop where
  clear : tree.Clear
  separate : tree.Separate

/-- What a tree amounts to: operators by name and precedence, comparisons by the operator that they are written with,
    variables by name. -/
def shape (words : Vocabulary) (tree : OperatorTree Instruction) : OperatorTree String :=
  tree.printed.map (·.atomText words)

theorem eq_before_of_printed {tree inner : OperatorTree α} {name : String} (h : tree.printed = .before name inner) :
    ∃ operand, tree = .before name operand := by
  cases tree with
  | before other operand =>
      cases h
      exact ⟨operand, rfl⟩
  | _ => cases h

end OperatorTree

/-- A phrase that begins with an operator is an operation of it, unless it is a binary one. -/
theorem Phrase.eq_before {marks rest : List (Mark α)} {name : String} {tree : OperatorTree α}
    (h : Phrase .signed marks tree) (hmarks : marks = .before name :: rest) : ∃ inner, tree = .before name inner := by
  cases h with
  | leaf => cases hmarks
  | group inner => cases hmarks
  | after operand => exact (operand.not_after_of_before hmarks.symm).elim
  | @before _ _ _ inner _ _ =>
      cases hmarks
      exact ⟨inner, rfl⟩

theorem Mark.eq_before_of_map {f : α → β} {mark : Mark α} {name : String} (h : mark.map f = .before name) :
    mark = .before name := by
  cases mark with
  | before other =>
      cases h
      rfl
  | _ => cases h

/-- Parentheses keep marks apart. -/
theorem spaced_enclose {f : α → String} {marks : List (Mark α)}
    (h : ∀ {rest}, Spaced false rest → Spaced true (marks.map (·.map f) ++ rest)) (isWrapped : Bool)
    {rest : List (Mark String)} (hrest : Spaced false rest) :
    Spaced true ((enclose isWrapped marks).map (·.map f) ++ rest) := by
  cases isWrapped with
  | false => exact h hrest
  | true =>
      have hinner := h (.closing hrest)
      simpa [enclose, Mark.map] using Spaced.opening hinner

/-- The marks of a legible tree can be told apart. -/
theorem OperatorTree.Legible.spaced {words : Vocabulary} {tree : OperatorTree Instruction} (h : tree.Legible)
    (hcore : tree.IsCore words) :
    ∀ {rest}, Spaced false rest → Spaced true (tree.marks.map (·.map (·.atomText words)) ++ rest) := by
  obtain ⟨hclear, hseparate⟩ := h
  induction tree with
  | leaf i => exact fun hrest => .leaf hcore.isWord hrest
  | binary form name precedence lhs rhs ihleft ihright =>
      intro rest hrest
      obtain ⟨hname, hlhs, hrhs⟩ := hcore
      obtain ⟨hleft, hright⟩ := hseparate
      cases form with
      | call =>
          have hsecond := spaced_enclose (ihright hrhs hclear.2.1 hright) (rhs.isWrapped (precedence ≤ ·)) hrest
          have hfirst := spaced_enclose (ihleft hlhs hclear.1 hleft) (lhs.isWrapped (precedence < ·))
            (.between hname hsecond)
          simpa [marks, Mark.map] using hfirst
      | comparison =>
          have hfirst := ihleft hlhs hclear.1 hleft (.between hname (ihright hrhs hclear.2.1 hright hrest))
          simpa [marks, Mark.map] using hfirst
  | before name operand ih =>
      intro rest hrest
      refine .before hcore.1 ?_ (spaced_enclose (ih hcore.2 hclear.1 hseparate.1) _ hrest)
      intro hminus other tail hmarks
      -- The marks of the operand are a phrase, so they begin with an operator only if the operand does.
      have hphrase := hclear.2.phrase (operand.phrase_marks hclear.1) operand.exists_bound
      generalize hoperand : enclose (operand.isWrapped fun _ => true) operand.marks = inner at hmarks hphrase
      cases inner with
      | nil => exact absurd rfl hphrase.ne_nil
      | cons mark inner =>
          have hmark := Mark.eq_before_of_map (List.cons.inj hmarks).1
          obtain ⟨read, hread⟩ := hphrase.eq_before (congrArg (· :: inner) hmark)
          obtain ⟨operand', hoperand'⟩ := eq_before_of_printed hread
          exact hseparate.2 hminus other operand' hoperand'
  | after name operand ih =>
      intro rest hrest
      have hfirst := spaced_enclose (ih hcore.2 hclear.1 hseparate) (operand.isWrapped fun _ => true)
        (.after hcore.1 hrest)
      simpa [marks, Mark.map] using hfirst

/-- Legible trees of one text amount to the same. -/
theorem OperatorTree.Legible.shape_eq {words : Vocabulary} {s t : OperatorTree Instruction} (hs : s.Legible)
    (ht : t.Legible) (hscore : s.IsCore words) (htcore : t.IsCore words)
    (htext : spell (·.atomText words) s.marks = spell (·.atomText words) t.marks) : s.shape words = t.shape words := by
  have hspaced := hs.spaced hscore .done
  have hspaced' := ht.spaced htcore .done
  rw [List.append_nil] at hspaced hspaced'
  have hmarks := hspaced.unique hspaced' (by rw [letters, letters, spell_map, spell_map, htext])
  have hphrase := (s.phrase_marks hs.clear).map (·.atomText words)
  have hphrase' := (t.phrase_marks ht.clear).map (·.atomText words)
  rw [hmarks] at hphrase
  exact hphrase.unique hphrase'

/-- Legible trees of core operators over variables that do not amount to the same are written differently. -/
theorem expression_injective {words : Vocabulary} {i j : Instruction} {s t : OperatorTree Instruction}
    (hi : Shows words i s) (hj : Shows words j t) (hscore : s.IsCore words) (htcore : t.IsCore words)
    (hs : s.Legible) (ht : t.Legible) (hne : s.shape words ≠ t.shape words) (scope : Scope)
    (remark : Option String) :
    ∃ text text', (i.expression words scope).run remark = .ok text remark ∧
      (j.expression words scope).run remark = .ok text' remark ∧ text ≠ text' := by
  refine ⟨_, _, hi.spells.expression scope remark, hj.spells.expression scope remark, fun htext => ?_⟩
  exact hne (hs.shape_eq ht hscore htcore htext)

/-!
### Samples
-/

section

variable {words : Vocabulary} {i j : Instruction} {s t : OperatorTree Instruction}

/-- Two operations that do not amount to the same but are written alike. -/
def Ambiguous (words : Vocabulary) (i j : Instruction) : Prop :=
  ∃ s t, Shows words i s ∧ Shows words j t ∧ s.IsCore words ∧ t.IsCore words ∧ s.shape words ≠ t.shape words ∧
    ∀ scope remark, (i.expression words scope).run remark = (j.expression words scope).run remark

theorem Ambiguous.of_spell (hi : Shows words i s) (hj : Shows words j t) (hscore : s.IsCore words)
    (htcore : t.IsCore words) (hne : s.shape words ≠ t.shape words)
    (htext : spell (·.atomText words) s.marks = spell (·.atomText words) t.marks) : Ambiguous words i j := by
  refine ⟨s, t, hi, hj, hscore, htcore, hne, fun scope remark => ?_⟩
  rw [hi.spells.expression scope remark, hj.spells.expression scope remark, htext]

end

/-- A comparison of two structures for equality. -/
def Instruction.structEqual (lhs rhs : Instruction) : Instruction :=
  .loose .structCmpEq (.structCmp ⟨0⟩ lhs rhs)

namespace OperatorTree

/-- The variable `A`. -/
def leafA : OperatorTree Instruction := .leaf (.variableAt 1)

/-- The variable `B`. -/
def leafB : OperatorTree Instruction := .leaf (.variableAt 2)

theorem isCore_leafA : leafA.IsCore operatorWords := ⟨⟨1⟩, rfl, by decide, List.all_eq_true.1 (by decide)⟩

theorem isCore_leafB : leafB.IsCore operatorWords := ⟨⟨2⟩, rfl, by decide, List.all_eq_true.1 (by decide)⟩

end OperatorTree

section

variable {i lhs rhs : Instruction} {tree left right : OperatorTree Instruction}

/-- The core operator of an ordinal, before its operand. -/
theorem Shows.core_before {ordinal : Nat} {name : String}
    (hnative : operatorWords.native ordinal = some (.preOperator name)) (h : Shows operatorWords i tree) :
    Shows operatorWords (.nativeCall ordinal [i]) (.before name tree) :=
  .before rfl hnative rfl h

theorem Shows.core_after {ordinal : Nat} {name : String}
    (hnative : operatorWords.native ordinal = some (.postOperator name)) (h : Shows operatorWords i tree) :
    Shows operatorWords (.nativeCall ordinal [i]) (.after name tree) :=
  .after rfl hnative rfl h

theorem Shows.structEqual (hleft : Shows operatorWords lhs left) (hright : Shows operatorWords rhs right) :
    Shows operatorWords (.structEqual lhs rhs) (.binary .comparison "==" 24 left right) :=
  .structComparison rfl hleft hright

end

/-- Operators of the core table, as the words know them. -/
theorem operatorWords_natives :
    ∀ entry ∈ [(129, .preOperator "!"), (138, .preOperator "--"), (139, .postOperator "++"), (143, .preOperator "-"),
      (154, .operator "==" 24)], operatorWords.native entry.1 = some entry.2 ∧ entry ∈ NativeTable.coreEntries := by
  decide +kernel

theorem operatorWords_not : operatorWords.native 129 = some (.preOperator "!") :=
  (operatorWords_natives (129, .preOperator "!") (by simp)).1

theorem operatorWords_decrement : operatorWords.native 138 = some (.preOperator "--") :=
  (operatorWords_natives (138, .preOperator "--") (by simp)).1

theorem operatorWords_postIncrement : operatorWords.native 139 = some (.postOperator "++") :=
  (operatorWords_natives (139, .postOperator "++") (by simp)).1

theorem operatorWords_negate : operatorWords.native 143 = some (.preOperator "-") :=
  (operatorWords_natives (143, .preOperator "-") (by simp)).1

theorem operatorWords_equal : operatorWords.native 154 = some (.operator "==" 24) :=
  (operatorWords_natives (154, .operator "==" 24) (by simp)).1

theorem isCore_not : IsCoreOperator .preOperator "!" 0 :=
  ⟨(129, .preOperator "!"), (operatorWords_natives _ (by simp)).2, rfl⟩

theorem isCore_equal : IsCoreOperator .operator "==" 24 :=
  ⟨(154, .operator "==" 24), (operatorWords_natives _ (by simp)).2, rfl⟩

/-- `!(A == B)`, a call of the operator. -/
def notOfEqual : Instruction :=
  .nativeCall 129 [.nativeCall 154 [.variableAt 1, .variableAt 2]]

/-- `!A == B`, a comparison of structures. -/
def equalOfNot : Instruction :=
  .structEqual (.nativeCall 129 [.variableAt 1]) (.variableAt 2)

open OperatorTree in
theorem expression_injective_notOfEqual :
    ∃ text text', (notOfEqual.expression operatorWords {}).run none = .ok text none ∧
      (equalOfNot.expression operatorWords {}).run none = .ok text' none ∧ text ≠ text' := by
  have hnot : Shows operatorWords notOfEqual (.before "!" (.binary .call "==" 24 leafA leafB)) :=
    .core_before operatorWords_not (.native rfl operatorWords_equal rfl (.variableAt _ 1) (.variableAt _ 2))
  have hequal : Shows operatorWords equalOfNot (.binary .comparison "==" 24 (.before "!" leafA) leafB) :=
    .structEqual (.core_before operatorWords_not (.variableAt _ 1)) (.variableAt _ 2)
  refine expression_injective hnot hequal ⟨isCore_not, isCore_equal, isCore_leafA, isCore_leafB⟩
    ⟨isCore_equal, ⟨isCore_not, isCore_leafA⟩, isCore_leafB⟩ ?_ ?_ ?_ {} none
  · constructor
    · exact ⟨⟨trivial, trivial, Or.inr trivial, Or.inr trivial⟩, Or.inl rfl⟩
    · simp [Separate, leafA, leafB]
  · constructor
    · exact ⟨⟨trivial, Or.inr trivial⟩, trivial, by simp [rank, Rank.le], trivial⟩
    · simp [Separate, leafA, leafB]
  · intro hshape
    cases hshape

open OperatorTree in
/-- Comparisons never stand in parentheses, `-` is not parted from what follows it, and an operator after an operation
    does not say what it applies to. -/
theorem expression_ambiguous :
    Ambiguous operatorWords (.nativeCall 129 [.structEqual (.variableAt 1) (.variableAt 2)])
        (.structEqual (.nativeCall 129 [.variableAt 1]) (.variableAt 2)) ∧
      Ambiguous operatorWords (.nativeCall 143 [.nativeCall 143 [.variableAt 1]]) (.nativeCall 138 [.variableAt 1]) ∧
      Ambiguous operatorWords (.nativeCall 143 [.nativeCall 139 [.variableAt 1]])
        (.nativeCall 139 [.nativeCall 143 [.variableAt 1]]) := by
  have hA : Shows operatorWords (.variableAt 1) leafA := .variableAt _ 1
  have hB : Shows operatorWords (.variableAt 2) leafB := .variableAt _ 2
  have hnegate : IsCoreOperator .preOperator "-" 0 := ⟨(143, .preOperator "-"), by decide +kernel, rfl⟩
  have hdecrement : IsCoreOperator .preOperator "--" 0 := ⟨(138, .preOperator "--"), by decide +kernel, rfl⟩
  have hincrement : IsCoreOperator .postOperator "++" 0 := ⟨(139, .postOperator "++"), by decide +kernel, rfl⟩
  refine ⟨?_, ?_, ?_⟩
  · exact .of_spell (.core_before operatorWords_not (.structEqual hA hB))
      (.structEqual (.core_before operatorWords_not hA) hB) ⟨isCore_not, isCore_equal, isCore_leafA, isCore_leafB⟩
      ⟨isCore_equal, ⟨isCore_not, isCore_leafA⟩, isCore_leafB⟩ (fun hshape => by cases hshape) rfl
  · exact .of_spell (.core_before operatorWords_negate (.core_before operatorWords_negate hA))
      (.core_before operatorWords_decrement hA) ⟨hnegate, hnegate, isCore_leafA⟩ ⟨hdecrement, isCore_leafA⟩
      (by decide +kernel) (by decide +kernel)
  · exact .of_spell (.core_before operatorWords_negate (.core_after operatorWords_postIncrement hA))
      (.core_after operatorWords_postIncrement (.core_before operatorWords_negate hA))
      ⟨hnegate, hincrement, isCore_leafA⟩ ⟨hincrement, hnegate, isCore_leafA⟩ (fun hshape => by cases hshape) rfl

end ScriptBytecode
