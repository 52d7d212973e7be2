/-
Module: ScriptBytecode.Proofs.Expression.Operations
Purpose: How instructions show operations. The text of an operation is spelled from marks, and which operands stand in
  parentheses depends on the tree alone. Where no operand binds more loosely than its place allows, the marks are a
  phrase that reads as the tree. Main statement: the text of a tree of binary operators, whatever their precedences,
  reads as that tree.
Main exports: OperatorTree.marks, OperatorTree.Clear, OperatorTree.phrase_marks, Token.isAtom, Shows, Shows.spells,
  expression_parses
-/
import ScriptBytecode.Proofs.Expression.Grammar

namespace ScriptBytecode

variable {α : Type}

/-!
### Marks of a tree
-/

namespace OperatorTree

/-- Precedence of a binary operation that is a call. Comparisons are never put in parentheses. -/
def callPrecedence? : OperatorTree α → Option Nat
  | .binary .call _ precedence _ _ => some precedence
  | _ => none

/-- A binary operation stands in parentheses as an operand that `wraps` says needs them. -/
def isWrapped (wraps : Nat → Bool) (tree : OperatorTree α) : Bool := tree.callPrecedence?.any wraps

end OperatorTree

/-- A sequence of marks, in parentheses or as it is. -/
def enclose (isWrapped : Bool) (marks : List (Mark α)) : List (Mark α) :=
  if isWrapped then .opening :: (marks ++ [.closing]) else marks

namespace OperatorTree

/-- The marks by which a tree is written. -/
def marks : OperatorTree α → List (Mark α)
  | .leaf value => [.leaf value]
  | .binary .call name precedence lhs rhs =>
    enclose (lhs.isWrapped (precedence < ·)) lhs.marks ++
      .between name precedence :: enclose (rhs.isWrapped (precedence ≤ ·)) rhs.marks
  | .binary .comparison name precedence lhs rhs => lhs.marks ++ .between name precedence :: rhs.marks
  | .before name operand => .before name :: enclose (operand.isWrapped fun _ => true) operand.marks
  | .after name operand => enclose (operand.isWrapped fun _ => true) operand.marks ++ [.after name]

/-- The tree with every comparison taken for a call of the operator that it is written with. -/
def printed : OperatorTree α → OperatorTree α
  | .leaf value => .leaf value
  | .binary _ name precedence lhs rhs => .binary .call name precedence lhs.printed rhs.printed
  | .before name operand => .before name operand.printed
  | .after name operand => .after name operand.printed

/-- The tightest phrase that a tree is outside parentheses. -/
def rank : OperatorTree α → Rank
  | .leaf _ | .after _ _ => .operand
  | .before _ _ => .signed
  | .binary _ _ precedence _ _ => .phrase (precedence + 1)

end OperatorTree

/-- A phrase of one rank is a phrase of the other. -/
def Rank.le : Rank → Rank → Prop
  | .operand, _ => True
  | .signed, rank => rank ≠ .operand
  | .phrase bound, .phrase bound' => bound ≤ bound'
  | .phrase _, _ => False

theorem Phrase.weaken {rank other : Rank} {marks : List (Mark α)} {tree : OperatorTree α} (h : Phrase rank marks tree)
    (hle : rank.le other) : Phrase other marks tree := by
  cases h with
  | leaf => exact .leaf
  | group inner => exact .group inner
  | after operand => exact .after operand
  | before hrank operand =>
      refine .before ?_ operand
      rintro rfl
      cases rank with
      | operand => exact hrank rfl
      | signed => exact hle rfl
      | phrase bound => exact hle
  | binary hbound hleft hright =>
      cases other with
      | phrase bound' => exact .binary (Nat.lt_of_lt_of_le hbound hle) hleft hright
      | _ => cases hle

namespace OperatorTree

/-- The tree is in parentheses where `wraps` asks for them, or holds together well enough for its place. -/
def Sits (place : Rank) (wraps : Nat → Bool) (tree : OperatorTree α) : Prop :=
  tree.isWrapped wraps = true ∨ tree.rank.le place

/-- No operand binds more loosely than its place allows. Only a comparison, which never gets parentheses, and an
    operator before the operand of an operator after it can do so. -/
def Clear : OperatorTree α → Prop
  | .leaf _ => True
  | .binary .call _ precedence lhs rhs =>
    lhs.Clear ∧ rhs.Clear ∧ lhs.Sits (.phrase (precedence + 1)) (precedence < ·) ∧
      rhs.Sits (.phrase precedence) (precedence ≤ ·)
  | .binary .comparison _ precedence lhs rhs =>
    lhs.Clear ∧ rhs.Clear ∧ lhs.rank.le (.phrase (precedence + 1)) ∧ rhs.rank.le (.phrase precedence)
  | .before _ operand => operand.Clear ∧ operand.Sits .signed fun _ => true
  | .after _ operand => operand.Clear ∧ operand.Sits .operand fun _ => true

/-- An operand in its place. -/
theorem Sits.phrase {place : Rank} {wraps : Nat → Bool} {tree read : OperatorTree α} (h : tree.Sits place wraps)
    (hphrase : Phrase tree.rank tree.marks read) (hclosed : ∃ bound, tree.rank.le (.phrase bound)) :
    Phrase place (enclose (tree.isWrapped wraps) tree.marks) read := by
  cases hwrapped : tree.isWrapped wraps with
  | true =>
      obtain ⟨bound, hbound⟩ := hclosed
      exact .group (hphrase.weaken hbound)
  | false =>
      rcases h with hwraps | hle
      · rw [hwrapped] at hwraps
        cases hwraps
      · exact hphrase.weaken hle

/-- Every tree is a phrase of some bound. -/
theorem exists_bound (tree : OperatorTree α) : ∃ bound, tree.rank.le (.phrase bound) := by
  cases tree with
  | leaf _ => exact ⟨0, trivial⟩
  | binary _ _ precedence _ _ => exact ⟨precedence + 1, Nat.le_refl _⟩
  | before _ _ => exact ⟨0, by simp [rank, Rank.le]⟩
  | after _ _ => exact ⟨0, trivial⟩

/-- The marks of a clear tree read as the tree, up to the form of comparisons. -/
theorem phrase_marks (tree : OperatorTree α) (h : tree.Clear) : Phrase tree.rank tree.marks tree.printed := by
  induction tree with
  | leaf value => exact .leaf
  | binary form name precedence lhs rhs ihleft ihright =>
      cases form with
      | call =>
          obtain ⟨hlhs, hrhs, hleft, hright⟩ := h
          exact .binary (Nat.lt_succ_self _) (hleft.phrase (ihleft hlhs) lhs.exists_bound)
            (hright.phrase (ihright hrhs) rhs.exists_bound)
      | comparison =>
          obtain ⟨hlhs, hrhs, hleft, hright⟩ := h
          exact .binary (Nat.lt_succ_self _) ((ihleft hlhs).weaken hleft) ((ihright hrhs).weaken hright)
  | before name operand ih => exact .before (by simp [rank]) (h.2.phrase (ih h.1) operand.exists_bound)
  | after name operand ih => exact .after (h.2.phrase (ih h.1) operand.exists_bound)

/-- The marks of a clear tree read as the tree and as nothing else. -/
theorem parses_marks {tree : OperatorTree α} (h : tree.Clear) (read : OperatorTree α) :
    Parses tree.marks read ↔ read = tree.printed := by
  obtain ⟨bound, hbound⟩ := tree.exists_bound
  have hparses : Parses tree.marks tree.printed := ⟨bound, (tree.phrase_marks h).weaken hbound⟩
  constructor
  · exact fun hread => hread.unique hparses
  · rintro rfl
    exact hparses

/-- All operations of the tree are calls of binary operators. -/
def IsBinary : OperatorTree α → Prop
  | .leaf _ => True
  | .binary form _ _ lhs rhs => form = .call ∧ lhs.IsBinary ∧ rhs.IsBinary
  | .before _ _ | .after _ _ => False

/-- A call of a binary operator is in parentheses, or it holds together well enough. -/
theorem IsBinary.sits {tree : OperatorTree α} (h : tree.IsBinary) {bound : Nat} {wraps : Nat → Bool}
    (hwraps : ∀ precedence, bound ≤ precedence → wraps precedence = true) : tree.Sits (.phrase bound) wraps := by
  cases tree with
  | leaf _ => exact Or.inr trivial
  | binary form name precedence lhs rhs =>
      obtain ⟨rfl, -⟩ := h
      rcases Nat.lt_or_ge precedence bound with hlt | hge
      · exact Or.inr hlt
      · exact Or.inl (hwraps precedence hge)
  | before _ _ => cases h
  | after _ _ => cases h

theorem IsBinary.clear {tree : OperatorTree α} (h : tree.IsBinary) : tree.Clear := by
  induction tree with
  | leaf _ => trivial
  | binary form name precedence lhs rhs ihleft ihright =>
      obtain ⟨rfl, hlhs, hrhs⟩ := h
      refine ⟨ihleft hlhs, ihright hrhs, hlhs.sits ?_, hrhs.sits ?_⟩
      · exact fun other hother => decide_eq_true hother
      · exact fun other hother => decide_eq_true hother
  | before _ _ => cases h
  | after _ _ => cases h

theorem IsBinary.printed {tree : OperatorTree α} (h : tree.IsBinary) : tree.printed = tree := by
  induction tree with
  | leaf _ => rfl
  | binary form name precedence lhs rhs ihleft ihright =>
      obtain ⟨rfl, hlhs, hrhs⟩ := h
      rw [OperatorTree.printed, ihleft hlhs, ihright hrhs]
  | before _ _ => cases h
  | after _ _ => cases h

end OperatorTree

/-!
### Texts of marks
-/

/-- What parts an operator from the operand that it stands next to. -/
def blankFor (name : String) : String := if endsInWord name then " " else ""

/-- Text of a mark. -/
def Mark.text (leafText : α → String) : Mark α → String
  | .leaf value => leafText value
  | .between name _ => s!" {name} "
  | .before name => name ++ blankFor name
  | .after name => blankFor name ++ name
  | .opening => "("
  | .closing => ")"

/-- Text of a sequence of marks. -/
def spell (leafText : α → String) (marks : List (Mark α)) : String := String.join (marks.map (·.text leafText))

section

variable (leafText : α → String)

@[simp] theorem spell_nil : spell leafText [] = "" := rfl

@[simp] theorem spell_cons (mark : Mark α) (marks : List (Mark α)) :
    spell leafText (mark :: marks) = mark.text leafText ++ spell leafText marks := by
  simp [spell]

@[simp] theorem spell_append (first second : List (Mark α)) :
    spell leafText (first ++ second) = spell leafText first ++ spell leafText second := by
  simp [spell]

theorem spell_enclose (isWrapped : Bool) (marks : List (Mark α)) :
    spell leafText (enclose isWrapped marks) =
      if isWrapped then s!"({spell leafText marks})" else spell leafText marks := by
  cases isWrapped with
  | false => rfl
  | true => simp [enclose, Mark.text]; rfl

end

/-!
### Instructions
-/

/-- Tokens that are written without operands: variables and constants. -/
def Token.isAtom : Token α → Bool
  | .noOperands | .variableRef _ | .undefinedVariable | .instanceDelegate _ | .delegateProperty _ _ | .intConst _
  | .floatConst _ | .byteConst _ | .stringConst _ | .nameConst _ | .objectConst _ | .rotatorConst _ _ _
  | .vectorConst _ _ _ | .rangeConst _ _ | .unknown => true
  | _ => false

/-- Text of an atom. -/
def Instruction.atomText (words : Vocabulary) (i : Instruction) : String :=
  match (i.expression words {}).run none with
  | .ok text _ => text
  | .error _ _ => ""

/-- An atom can be written, in any scope. -/
theorem Instruction.expression_atom {i : Instruction} (h : i.token.isAtom = true) (words : Vocabulary) (scope : Scope)
    (remark : Option String) : (i.expression words scope).run remark = .ok (i.atomText words) remark := by
  obtain ⟨code, opcode, position, size, storagePosition, storageSize, token⟩ := i
  cases token <;> first | rfl | cases h

/-- A comparison for equality or the contrary. It has the precedence of the operator that it is written with. -/
def OperatorTree.comparison (isNegated : Bool) (lhs rhs : OperatorTree α) : OperatorTree α :=
  if isNegated then .binary .comparison "!=" 26 lhs rhs else .binary .comparison "==" 24 lhs rhs

/-- The instruction shows a tree of operations over atoms. Steps over an operand are not part of the tree. -/
inductive Shows (words : Vocabulary) : Instruction → OperatorTree Instruction → Prop where
  | atom {i : Instruction} (hatom : i.token.isAtom = true) : Shows words i (.leaf i)
  | native {i lhs rhs : Instruction} {left right : OperatorTree Instruction} {ordinal : Nat} {native : NativeFunction}
      (htoken : i.token = .call (.native ordinal) [lhs, rhs]) (hnative : words.native ordinal = some native)
      (hstyle : native.style = .operator) (hleft : Shows words lhs left) (hright : Shows words rhs right) :
      Shows words i (.binary .call native.name native.precedence left right)
  | final {i lhs rhs : Instruction} {left right : OperatorTree Instruction} {object : ObjectRef} {info : ObjectInfo}
      {function : FunctionInfo} (htoken : i.token = .call (.final object) [lhs, rhs])
      (hobject : words.symbols.object object = some info) (hkind : info.kind = .function)
      (hfunction : info.function = some function) (hoperator : function.isOperator = true)
      (hleft : Shows words lhs left) (hright : Shows words rhs right) :
      Shows words i (.binary .call info.name function.precedence left right)
  | before {i arg : Instruction} {operand : OperatorTree Instruction} {ordinal : Nat} {native : NativeFunction}
      (htoken : i.token = .call (.native ordinal) [arg]) (hnative : words.native ordinal = some native)
      (hstyle : native.style = .preOperator) (hoperand : Shows words arg operand) :
      Shows words i (.before native.name operand)
  | after {i arg : Instruction} {operand : OperatorTree Instruction} {ordinal : Nat} {native : NativeFunction}
      (htoken : i.token = .call (.native ordinal) [arg]) (hnative : words.native ordinal = some native)
      (hstyle : native.style = .postOperator) (hoperand : Shows words arg operand) :
      Shows words i (.after native.name operand)
  | structComparison {i lhs rhs : Instruction} {left right : OperatorTree Instruction} {type : ObjectRef}
      (htoken : i.token = .structCmp type lhs rhs) (hleft : Shows words lhs left) (hright : Shows words rhs right) :
      Shows words i (.comparison (i.opcode = .structCmpNe) left right)
  | delegateComparison {i lhs rhs : Instruction} {left right : OperatorTree Instruction}
      (htoken : i.token = .delegateCmp lhs rhs) (hleft : Shows words lhs left) (hright : Shows words rhs right) :
      Shows words i (.comparison (i.opcode = .delegateNe ∨ i.opcode = .delegateFunctionNe) left right)
  | skip {i expr : Instruction} {tree : OperatorTree Instruction} {distance : UInt16}
      (htoken : i.token = .skip distance expr) (hexpr : Shows words expr tree) : Shows words i tree

/-!
### Rendering
-/

namespace Render

theorem run_bind_of_ok {β γ : Type} {render : Render β} {next : β → Render γ} {value : β} {before after : Option String}
    (h : render.run before = .ok value after) : (render >>= next).run before = (next value).run after := by
  change EStateM.bind render next before = next value after
  unfold EStateM.bind
  rw [show render before = .ok value after from h]

end Render

/-- An operand that can be written, in parentheses where they are asked for. -/
theorem Operand.run_within {operand : Operand} {scope : Scope} {text : String} {remark : Option String}
    (h : (operand.text scope).run remark = .ok text remark) (wraps : Nat → Bool) :
    (operand.within scope wraps).run remark =
      .ok (if operand.precedence.any wraps then s!"({text})" else text) remark := by
  rw [Operand.within, Render.run_bind_of_ok h]
  rfl

/-- How an operand is written, and how loosely it binds. -/
structure Instruction.Spells (words : Vocabulary) (i : Instruction) (tree : OperatorTree Instruction) : Prop where
  expression : ∀ scope remark, (i.expression words scope).run remark = .ok (spell (·.atomText words) tree.marks) remark
  precedence : i.binaryPrecedence words = tree.callPrecedence?

/-- The operand of a call for an instruction. -/
def Instruction.operand (words : Vocabulary) (i : Instruction) : Operand :=
  ⟨i.opcode, i.binaryPrecedence words, i.expression words⟩

namespace Instruction.Spells

variable {words : Vocabulary} {i lhs rhs : Instruction} {tree left right : OperatorTree Instruction}

/-- An operand of an operator. -/
theorem run_within (h : i.Spells words tree) (scope : Scope) (remark : Option String) (wraps : Nat → Bool) :
    ((i.operand words).within scope wraps).run remark =
      .ok (spell (·.atomText words) (enclose (tree.isWrapped wraps) tree.marks)) remark := by
  rw [Operand.run_within (h.expression scope remark), spell_enclose, OperatorTree.isWrapped, ← h.precedence]
  rfl

/-- A binary operator between its operands. -/
theorem run_binaryText (hleft : lhs.Spells words left) (hright : rhs.Spells words right) (scope : Scope)
    (remark : Option String) (name : String) (precedence : Nat) :
    (binaryText scope name precedence (lhs.operand words) (rhs.operand words)).run remark =
      .ok (spell (·.atomText words) (OperatorTree.binary .call name precedence left right).marks) remark := by
  rw [binaryText, Render.run_bind_of_ok (hleft.run_within scope remark _),
    Render.run_bind_of_ok (hright.run_within scope remark _), OperatorTree.marks, spell_append, spell_cons, Mark.text]
  simp only [String.append_assoc, toString]
  rfl

/-- A unary operator before its operand. -/
theorem run_unaryText_before (h : i.Spells words tree) (scope : Scope) (remark : Option String) (name : String) :
    (unaryText scope name (i.operand words) true).run remark =
      .ok (spell (·.atomText words) (OperatorTree.before name tree).marks) remark := by
  rw [unaryText, Render.run_bind_of_ok (h.run_within scope remark _), OperatorTree.marks, spell_cons, Mark.text,
    blankFor]
  rfl

/-- A unary operator after its operand. -/
theorem run_unaryText_after (h : i.Spells words tree) (scope : Scope) (remark : Option String) (name : String) :
    (unaryText scope name (i.operand words) false).run remark =
      .ok (spell (·.atomText words) (OperatorTree.after name tree).marks) remark := by
  rw [unaryText, Render.run_bind_of_ok (h.run_within scope remark _), OperatorTree.marks, spell_append, spell_cons,
    Mark.text, blankFor, spell_nil, String.append_empty, ← String.append_assoc]
  rfl

/-- A comparison of two operands, which never stand in parentheses. -/
theorem spell_comparison (isNegated : Bool) :
    (if isNegated then s!"{spell (·.atomText words) left.marks} != {spell (·.atomText words) right.marks}"
      else s!"{spell (·.atomText words) left.marks} == {spell (·.atomText words) right.marks}") =
      spell (·.atomText words) (OperatorTree.comparison isNegated left right).marks := by
  cases isNegated with
  | true =>
      rw [if_pos rfl, OperatorTree.comparison, if_pos rfl, OperatorTree.marks, spell_append, spell_cons, Mark.text]
      simp only [toString, String.append_assoc]
      rfl
  | false =>
      rw [if_neg Bool.false_ne_true, OperatorTree.comparison, if_neg Bool.false_ne_true, OperatorTree.marks,
        spell_append, spell_cons, Mark.text]
      simp only [toString, String.append_assoc]
      rfl

theorem callPrecedence?_comparison (isNegated : Bool) :
    (OperatorTree.comparison isNegated left right).callPrecedence? = none := by
  cases isNegated <;> rfl

end Instruction.Spells

/-- An instruction that shows a tree is written by the marks of the tree. -/
theorem Shows.spells {words : Vocabulary} {i : Instruction} {tree : OperatorTree Instruction} (h : Shows words i tree) :
    i.Spells words tree := by
  induction h with
  | @atom i hatom =>
      constructor
      · intro scope remark
        rw [i.expression_atom hatom, OperatorTree.marks, spell_cons, spell_nil, String.append_empty]
        rfl
      · obtain ⟨code, opcode, position, size, storagePosition, storageSize, token⟩ := i
        cases token <;> first | rfl | cases hatom
  | @native i lhs rhs left right ordinal native htoken hnative hstyle _ _ ihleft ihright =>
      obtain ⟨code, opcode, position, size, storagePosition, storageSize, token⟩ := i
      subst htoken
      constructor
      · intro scope remark
        rw [Instruction.expression, callText]
        simp only [hnative, nativeCallText, hstyle]
        exact ihleft.run_binaryText ihright scope remark native.name native.precedence
      · simp [Instruction.binaryPrecedence, hnative, Option.filter, hstyle, OperatorTree.callPrecedence?]
  | @final i lhs rhs left right object info function htoken hobject hkind hfunction hoperator _ _ ihleft ihright =>
      obtain ⟨code, opcode, position, size, storagePosition, storageSize, token⟩ := i
      subst htoken
      constructor
      · intro scope remark
        rw [Instruction.expression, callText]
        simp only [hobject, hkind, if_true, finalCallText, hfunction, Option.getD_some, hoperator]
        exact ihleft.run_binaryText ihright scope remark info.name function.precedence
      · simp [Instruction.binaryPrecedence, hobject, hfunction, Option.filter, hoperator, OperatorTree.callPrecedence?]
  | @before i arg operand ordinal native htoken hnative hstyle _ ih =>
      obtain ⟨code, opcode, position, size, storagePosition, storageSize, token⟩ := i
      subst htoken
      constructor
      · intro scope remark
        rw [Instruction.expression, callText]
        simp only [hnative, nativeCallText, hstyle]
        exact ih.run_unaryText_before scope remark native.name
      · rfl
  | @after i arg operand ordinal native htoken hnative hstyle _ ih =>
      obtain ⟨code, opcode, position, size, storagePosition, storageSize, token⟩ := i
      subst htoken
      constructor
      · intro scope remark
        rw [Instruction.expression, callText]
        simp only [hnative, nativeCallText, hstyle]
        exact ih.run_unaryText_after scope remark native.name
      · rfl
  | @structComparison i lhs rhs left right type htoken _ _ ihleft ihright =>
      obtain ⟨code, opcode, position, size, storagePosition, storageSize, token⟩ := i
      subst htoken
      constructor
      · intro scope remark
        rw [Instruction.expression, Render.run_bind_of_ok (ihleft.expression scope remark),
          Render.run_bind_of_ok (ihright.expression scope remark), ← Instruction.Spells.spell_comparison]
        simp only [decide_eq_true_eq]
        rfl
      · exact (Instruction.Spells.callPrecedence?_comparison _).symm
  | @delegateComparison i lhs rhs left right htoken _ _ ihleft ihright =>
      obtain ⟨code, opcode, position, size, storagePosition, storageSize, token⟩ := i
      subst htoken
      constructor
      · intro scope remark
        rw [Instruction.expression, Render.run_bind_of_ok (ihleft.expression scope remark),
          Render.run_bind_of_ok (ihright.expression scope remark), ← Instruction.Spells.spell_comparison]
        simp only [decide_eq_true_eq]
        rfl
      · exact (Instruction.Spells.callPrecedence?_comparison _).symm
  | @skip i expr tree distance htoken _ ih =>
      obtain ⟨code, opcode, position, size, storagePosition, storageSize, token⟩ := i
      subst htoken
      constructor
      · intro scope remark
        rw [Instruction.expression]
        exact ih.expression scope remark
      · exact ih.precedence

/-- A tree of binary operators over atoms, some of them stepped over, can be written, and its marks read as that tree
    and as no other. -/
theorem expression_parses {words : Vocabulary} {i : Instruction} {tree : OperatorTree Instruction}
    (hshows : Shows words i tree) (hbinary : tree.IsBinary) (scope : Scope) (remark : Option String) :
    (i.expression words scope).run remark = .ok (spell (·.atomText words) tree.marks) remark ∧
      ∀ read, Parses tree.marks read ↔ read = tree := by
  refine ⟨hshows.spells.expression scope remark, fun read => ?_⟩
  rw [OperatorTree.parses_marks hbinary.clear, hbinary.printed]

/-- An operator that the symbols declare. -/
def dotFunction : FunctionInfo where
  flags := ⟨FunctionFlags.operator⟩
  precedence := 16

/-- Two variables and an operator function, with the core natives. -/
def operatorWords : Vocabulary where
  symbols :=
    { name := fun _ => none
      object := fun object =>
        if object.index = 1 then some { name := "A", kind := .property }
        else if object.index = 2 then some { name := "B", kind := .property }
        else if object.index = 13 then
          some { name := "Dot", kind := .function, function := some dotFunction }
        else none
      native := .empty }
  natives := NativeTable.core.lookup
  format := ⟨512, 0⟩
  owner := none

/-- An instruction of a kind, without addresses. -/
def Instruction.loose (opcode : Opcode) (token : Token Instruction) : Instruction where
  code := ⟨0, none⟩
  opcode := opcode
  position := 0
  size := 0
  storagePosition := 0
  storageSize := 0
  token := token

/-- A local variable. -/
def Instruction.variableAt (index : Int32) : Instruction := .loose .localVariable (.variableRef ⟨index⟩)

/-- A call of a native. -/
def Instruction.nativeCall (ordinal : Nat) (args : List Instruction) : Instruction :=
  .loose (.native ordinal) (.call (.native ordinal) args)

/-- `A Dot B - (B - A)`, where the second difference is stepped over. -/
def nestedOperators : Instruction :=
  .nativeCall 147 [.loose .finalFunction (.call (.final ⟨13⟩) [.variableAt 1, .variableAt 2]),
    .loose .skip (.skip 9 (.nativeCall 147 [.variableAt 2, .variableAt 1]))]

/-- The tree that it shows. -/
def nestedTree : OperatorTree Instruction :=
  .binary .call "-" 20 (.binary .call "Dot" 16 (.leaf (.variableAt 1)) (.leaf (.variableAt 2)))
    (.binary .call "-" 20 (.leaf (.variableAt 2)) (.leaf (.variableAt 1)))

theorem operatorWords_minus : operatorWords.native 147 = some (.operator "-" 20) := by decide +kernel

theorem Shows.variableAt (words : Vocabulary) (index : Int32) :
    Shows words (.variableAt index) (.leaf (.variableAt index)) :=
  .atom rfl

theorem shows_nestedOperators : Shows operatorWords nestedOperators nestedTree := by
  refine .native rfl operatorWords_minus rfl ?_ ?_
  · have hobject : operatorWords.symbols.object ⟨13⟩ =
        some { name := "Dot", kind := .function, function := some dotFunction } := rfl
    have hoperator : dotFunction.isOperator = true := by decide
    exact .final rfl hobject rfl rfl hoperator (.variableAt _ 1) (.variableAt _ 2)
  · exact .skip rfl (.native rfl operatorWords_minus rfl (.variableAt _ 2) (.variableAt _ 1))

theorem expression_parses_nestedOperators :
    Shows operatorWords nestedOperators nestedTree ∧ nestedTree.IsBinary ∧
      (nestedOperators.expression operatorWords {}).run none = .ok "A Dot B - (B - A)" none ∧
      ∀ read, Parses nestedTree.marks read ↔ read = nestedTree := by
  have hbinary : nestedTree.IsBinary := by simp [nestedTree, OperatorTree.IsBinary]
  obtain ⟨htext, hparses⟩ := expression_parses shows_nestedOperators hbinary {} none
  have hspelled : spell (·.atomText operatorWords) nestedTree.marks = "A Dot B - (B - A)" := by decide +kernel
  rw [hspelled] at htext
  exact ⟨shows_nestedOperators, hbinary, htext, hparses⟩

end ScriptBytecode
