/-
Module: ScriptBytecode.Proofs.Expression.Grammar
Purpose: The grammar of operations. An operation is written as a sequence of marks: leaves, operators and parentheses.
  A smaller precedence binds tighter, binary operators associate to the left, operators after their operand bind
  tighter than those before it, and both bind tighter than any binary operator. Main statement: a sequence of marks
  has one reading at most.
Main exports: OperatorTree, Mark, Rank, Phrase, Parses, Phrase.precedence_lt, Phrase.unique
-/
import ScriptBytecode.Expression

namespace ScriptBytecode

/-- How a binary operation is stored. -/
inductive BinaryForm where
  /-- A call of an operator. -/
  | call
  /-- An instruction that compares its operands. -/
  | comparison
deriving Repr, Inhabited, DecidableEq

/-- A tree of operations over leaves. -/
inductive OperatorTree (α : Type) where
  | leaf (value : α)
  | binary (form : BinaryForm) (name : String) (precedence : Nat) (lhs rhs : OperatorTree α)
  /-- A unary operator before its operand. -/
  | before (name : String) (operand : OperatorTree α)
  /-- A unary operator after its operand. -/
  | after (name : String) (operand : OperatorTree α)
deriving Repr, Inhabited, DecidableEq

/-- One mark of a written operation. -/
inductive Mark (α : Type) where
  | leaf (value : α)
  /-- A binary operator between its operands. -/
  | between (name : String) (precedence : Nat)
  | before (name : String)
  | after (name : String)
  | opening
  | closing
deriving Repr, Inhabited, DecidableEq

variable {α : Type}

/-- How tightly a phrase holds together. -/
inductive Rank where
  /-- A leaf or a phrase in parentheses, with operators after it. -/
  | operand
  /-- The same with operators before it. -/
  | signed
  /-- Binary operators outside parentheses have a precedence below the bound. -/
  | phrase (bound : Nat)
deriving Repr, DecidableEq

/-- The marks are a phrase of a rank, and read as a tree. The left operand of an operator may hold operators of the
    same precedence, the right operand may not. -/
inductive Phrase : Rank → List (Mark α) → OperatorTree α → Prop where
  | leaf {rank : Rank} {value : α} : Phrase rank [.leaf value] (.leaf value)
  | group {rank : Rank} {bound : Nat} {marks : List (Mark α)} {tree : OperatorTree α}
      (inner : Phrase (.phrase bound) marks tree) : Phrase rank (.opening :: (marks ++ [.closing])) tree
  | after {rank : Rank} {name : String} {marks : List (Mark α)} {tree : OperatorTree α}
      (operand : Phrase .operand marks tree) : Phrase rank (marks ++ [.after name]) (.after name tree)
  | before {rank : Rank} {name : String} {marks : List (Mark α)} {tree : OperatorTree α} (hrank : rank ≠ .operand)
      (operand : Phrase .signed marks tree) : Phrase rank (.before name :: marks) (.before name tree)
  | binary {bound precedence : Nat} {name : String} {left right : List (Mark α)} {lhs rhs : OperatorTree α}
      (hbound : precedence < bound) (hleft : Phrase (.phrase (precedence + 1)) left lhs)
      (hright : Phrase (.phrase precedence) right rhs) :
      Phrase (.phrase bound) (left ++ .between name precedence :: right) (.binary .call name precedence lhs rhs)

/-- The marks read as a tree. -/
def Parses (marks : List (Mark α)) (tree : OperatorTree α) : Prop :=
  ∃ bound, Phrase (.phrase bound) marks tree

/-!
### Parentheses

In a phrase every parenthesis is closed, and none is closed before it is opened. Whether an operator of a phrase stands
outside the parentheses is therefore seen from the parentheses after it.
-/

/-- By how much a mark changes the number of open parentheses. -/
def Mark.depth : Mark α → Int
  | .opening => 1
  | .closing => -1
  | _ => 0

/-- How many parentheses a sequence of marks leaves open. -/
def depth (marks : List (Mark α)) : Int := (marks.map Mark.depth).foldr (· + ·) 0

@[simp] theorem depth_nil : depth ([] : List (Mark α)) = 0 := rfl

@[simp] theorem depth_cons (mark : Mark α) (marks : List (Mark α)) :
    depth (mark :: marks) = mark.depth + depth marks := rfl

@[simp] theorem depth_append (first second : List (Mark α)) :
    depth (first ++ second) = depth first + depth second := by
  induction first with
  | nil => simp
  | cons mark rest ih => rw [List.cons_append, depth_cons, depth_cons, ih, Int.add_assoc]

namespace Phrase

variable {rank : Rank} {marks : List (Mark α)} {tree : OperatorTree α}

theorem depth_eq_zero (h : Phrase rank marks tree) : depth marks = 0 := by
  induction h with
  | leaf => rfl
  | group _ ih => simp [ih, Mark.depth]
  | after _ ih => simp [ih, Mark.depth]
  | before _ _ ih => simp [ih, Mark.depth]
  | binary _ _ _ ihleft ihright => simp [ihleft, ihright, Mark.depth]

theorem ne_nil (h : Phrase rank marks tree) : marks ≠ [] := by
  cases h <;> simp

/-- What is left of a phrase opens no more parentheses than it closes. -/
theorem depth_suffix (h : Phrase rank marks tree) :
    ∀ first rest, marks = first ++ rest → depth rest ≤ 0 := by
  induction h with
  | leaf =>
      intro first rest hsplit
      rcases first with - | ⟨mark, first⟩
      · rw [List.nil_append] at hsplit
        simp [← hsplit, Mark.depth]
      · have hrest : rest = [] := by simp_all
        simp [hrest]
  | group inner ih =>
      intro first rest hsplit
      rcases first with - | ⟨mark, first⟩
      · have hzero := (Phrase.group inner : Phrase .operand _ _).depth_eq_zero
        rw [hsplit, List.nil_append] at hzero
        exact Int.le_of_eq hzero
      · obtain ⟨-, hinner⟩ := List.cons.inj hsplit
        rcases List.append_eq_append_iff.1 hinner with ⟨middle, -, hrest⟩ | ⟨middle, hmarks, hrest⟩
        · rcases middle with - | ⟨last, middle⟩
          · simp [show rest = [.closing] from hrest.symm, Mark.depth]
          · have hempty : rest = [] := by simp_all
            simp [hempty]
        · have hmiddle := ih first middle hmarks
          rw [hrest, depth_append]
          simp only [depth_cons, Mark.depth, depth_nil]
          omega
  | after operand ih =>
      intro first rest hsplit
      rcases List.append_eq_append_iff.1 hsplit with ⟨middle, -, hrest⟩ | ⟨middle, hmarks, hrest⟩
      · rcases middle with - | ⟨last, middle⟩
        · simp [show rest = [.after _] from hrest.symm, Mark.depth]
        · have hempty : rest = [] := by simp_all
          simp [hempty]
      · have hmiddle := ih first middle hmarks
        simpa [hrest, Mark.depth] using hmiddle
  | before hrank operand ih =>
      intro first rest hsplit
      rcases first with - | ⟨mark, first⟩
      · rw [List.nil_append] at hsplit
        rw [← hsplit, depth_cons, operand.depth_eq_zero]
        exact Int.le_refl 0
      · exact ih first rest (List.cons.inj hsplit).2
  | binary hbound hleft hright ihleft ihright =>
      intro first rest hsplit
      rcases List.append_eq_append_iff.1 hsplit with ⟨middle, -, hrest⟩ | ⟨middle, hmarks, hrest⟩
      · rcases middle with - | ⟨mark, middle⟩
        · rw [List.nil_append] at hrest
          simp [← hrest, Mark.depth, hright.depth_eq_zero]
        · exact ihright middle rest (List.cons.inj hrest).2
      · have hmiddle := ihleft first middle hmarks
        simpa [hrest, Mark.depth, hright.depth_eq_zero] using hmiddle

/-- An operator outside the parentheses of a phrase has a precedence that the rank of the phrase allows. -/
theorem precedence_lt (h : Phrase rank marks tree) :
    ∀ {name precedence} first rest, marks = first ++ .between name precedence :: rest → depth rest = 0 →
      ∃ bound, rank = .phrase bound ∧ precedence < bound := by
  induction h with
  | leaf =>
      intro name precedence first rest hsplit
      rcases first with - | ⟨mark, first⟩ <;> simp at hsplit
  | @group rank bound marks tree inner ih =>
      intro name precedence first rest hsplit hrest
      rcases first with - | ⟨mark, first⟩
      · cases (List.cons.inj hsplit).1
      · have hinner : marks ++ [.closing] = first ++ .between name precedence :: rest := (List.cons.inj hsplit).2
        -- The closing parenthesis stands behind the operator, so the operator is inside.
        rcases List.eq_nil_or_concat rest with rfl | ⟨rest, last, rfl⟩
        · cases List.singleton_inj.1 (List.append_inj_right' hinner rfl)
        · rw [List.concat_eq_append, ← List.cons_append, ← List.append_assoc] at hinner
          obtain ⟨hmarks, hlast⟩ := List.append_inj' hinner rfl
          obtain rfl := List.singleton_inj.1 hlast
          have hinside := inner.depth_suffix (first ++ [.between name precedence]) rest (by simp [hmarks])
          simp only [List.concat_eq_append, depth_append, depth_cons, Mark.depth, depth_nil] at hrest
          omega
  | after operand ih =>
      intro name precedence first rest hsplit hrest
      rcases List.eq_nil_or_concat rest with rfl | ⟨rest, last, rfl⟩
      · cases List.singleton_inj.1 (List.append_inj_right' hsplit rfl)
      · rw [List.concat_eq_append, ← List.cons_append, ← List.append_assoc] at hsplit
        obtain ⟨hmarks, hlast⟩ := List.append_inj' hsplit rfl
        obtain rfl := List.singleton_inj.1 hlast
        obtain ⟨bound, hrank, -⟩ := ih first rest hmarks (by simpa [Mark.depth] using hrest)
        cases hrank
  | before hrank operand ih =>
      intro name precedence first rest hsplit hrest
      rcases first with - | ⟨mark, first⟩
      · cases (List.cons.inj hsplit).1
      · obtain ⟨bound, hsigned, -⟩ := ih first rest (List.cons.inj hsplit).2 hrest
        cases hsigned
  | @binary bound precedence name left right lhs rhs hbound hleft hright ihleft ihright =>
      intro name' precedence' first rest hsplit hrest
      refine ⟨bound, rfl, ?_⟩
      rcases List.append_eq_append_iff.1 hsplit with ⟨middle, -, htail⟩ | ⟨middle, hmarks, htail⟩
      · rcases middle with - | ⟨mark, middle⟩
        · cases (List.cons.inj htail).1
          exact hbound
        · obtain ⟨_, hrank, hlt⟩ := ihright middle rest (List.cons.inj htail).2 hrest
          cases hrank
          omega
      · rcases middle with - | ⟨mark, middle⟩
        · cases (List.cons.inj htail).1
          exact hbound
        · obtain ⟨rfl, rfl⟩ := List.cons.inj htail
          have hmiddle : depth middle = 0 := by simpa [Mark.depth, hright.depth_eq_zero] using hrest
          obtain ⟨_, hrank, hlt⟩ := ihleft first middle hmarks hmiddle
          cases hrank
          omega

/-- Without binary operators outside parentheses a phrase is no binary operation. -/
theorem ne_binary {left right : List (Mark α)} {name : String} {precedence : Nat} {rhs : OperatorTree α}
    (h : Phrase .signed marks tree) (hright : Phrase (.phrase precedence) right rhs) :
    marks ≠ left ++ .between name precedence :: right := by
  intro heq
  obtain ⟨bound, hrank, -⟩ := h.precedence_lt left right heq hright.depth_eq_zero
  cases hrank

/-- Operands do not begin with an operator. -/
theorem not_before {rest : List (Mark α)} {name : String} (h : Phrase .operand marks tree)
    (hmarks : marks = .before name :: rest) : False := by
  generalize hrank : Rank.operand = rank at h
  induction h generalizing rest with
  | leaf => cases hmarks
  | group _ _ => cases hmarks
  | @after rank last marks tree operand ih =>
      cases marks with
      | nil => exact operand.ne_nil rfl
      | cons first marks =>
          obtain ⟨rfl, -⟩ := List.cons.inj hmarks
          exact ih rfl rfl
  | before hne _ _ => exact hne hrank.symm
  | binary _ _ _ _ _ => cases hrank

/-- A phrase that ends in an operator and begins with one cannot be read from its end. -/
theorem not_after_of_before {name last : String} {rest : List (Mark α)} (h : Phrase .operand marks tree)
    (heq : .before name :: rest = marks ++ [.after last]) : False := by
  cases marks with
  | nil => exact h.ne_nil rfl
  | cons first marks =>
      obtain ⟨rfl, -⟩ := List.cons.inj heq
      exact h.not_before rfl

/-- Of two ways to part a phrase at a binary operator the operator of the first cannot stand further left. -/
theorem not_split {left right left' middle : List (Mark α)} {name name' : String} {precedence precedence' : Nat}
    {rhs lhs' rhs' : OperatorTree α}
    (hright : Phrase (.phrase precedence) (middle ++ .between name' precedence' :: right) rhs)
    (hleft' : Phrase (.phrase (precedence' + 1)) left' lhs') (hright' : Phrase (.phrase precedence') right rhs')
    (heq : left' = left ++ .between name precedence :: middle) : False := by
  obtain ⟨_, hrank, hlt⟩ := hright.precedence_lt middle right rfl hright'.depth_eq_zero
  cases hrank
  have hmiddle : depth middle = 0 := by
    simpa [Mark.depth, hright'.depth_eq_zero] using hright.depth_eq_zero
  obtain ⟨_, hrank', hlt'⟩ := hleft'.precedence_lt left middle heq hmiddle
  cases hrank'
  omega

/-- A binary operation parts at one operator only: the last one of the loosest outside parentheses. -/
theorem split_unique {left right left' right' : List (Mark α)} {name name' : String} {precedence precedence' : Nat}
    {lhs rhs lhs' rhs' : OperatorTree α} (hleft : Phrase (.phrase (precedence + 1)) left lhs)
    (hright : Phrase (.phrase precedence) right rhs) (hleft' : Phrase (.phrase (precedence' + 1)) left' lhs')
    (hright' : Phrase (.phrase precedence') right' rhs')
    (heq : left ++ .between name precedence :: right = left' ++ .between name' precedence' :: right') :
    left = left' ∧ (.between name precedence : Mark α) = .between name' precedence' ∧ right = right' := by
  rcases List.append_eq_append_iff.1 heq with ⟨middle, hfirst, htail⟩ | ⟨middle, hfirst, htail⟩
  · cases middle with
    | nil =>
        obtain ⟨hmark, hrest⟩ := List.cons.inj htail
        exact ⟨by simpa using hfirst.symm, hmark, hrest⟩
    | cons mark middle =>
        obtain ⟨rfl, rfl⟩ := List.cons.inj htail
        exact (not_split hright hleft' hright' hfirst).elim
  · cases middle with
    | nil =>
        obtain ⟨hmark, hrest⟩ := List.cons.inj htail
        exact ⟨by simpa using hfirst, hmark.symm, hrest.symm⟩
    | cons mark middle =>
        obtain ⟨rfl, rfl⟩ := List.cons.inj htail
        exact (not_split hright' hleft hright hfirst).elim

theorem last_eq (first second : List (Mark α)) {mark mark' : Mark α} (h : first ++ [mark] = second ++ [mark']) :
    mark = mark' :=
  List.singleton_inj.1 (List.append_inj_right' h rfl)

/-- A sequence of marks is a phrase in one way only, whatever the rank. -/
theorem unique (h : Phrase rank marks tree) :
    ∀ {rank' : Rank} {tree' : OperatorTree α}, Phrase rank' marks tree' → tree = tree' := by
  induction h with
  | @leaf rank value =>
      intro rank' tree' h'
      generalize hmarks : [Mark.leaf value] = marks at h'
      cases h' with
      | leaf =>
          cases hmarks
          rfl
      | group _ => cases hmarks
      | after _ => cases last_eq [] _ hmarks
      | before _ _ => cases hmarks
      | binary _ _ hright => exact absurd hmarks (Phrase.leaf.ne_binary hright)
  | @group rank bound marks tree inner ih =>
      intro rank' tree' h'
      generalize hmarks : Mark.opening :: (marks ++ [.closing]) = whole at h'
      cases h' with
      | leaf => cases hmarks
      | group inner' =>
          obtain rfl := List.append_inj_left' (List.cons.inj hmarks).2 rfl
          exact ih inner'
      | after operand => cases last_eq (.opening :: marks) _ hmarks
      | before _ _ => cases hmarks
      | binary _ _ hright => exact absurd hmarks ((Phrase.group inner).ne_binary hright)
  | @after rank name marks tree operand ih =>
      intro rank' tree' h'
      generalize hmarks : marks ++ [.after name] = whole at h'
      cases h' with
      | leaf => cases last_eq _ [] hmarks
      | @group _ _ inner => cases last_eq _ (.opening :: inner) hmarks
      | after operand' =>
          obtain ⟨rfl, hlast⟩ := List.append_inj' hmarks rfl
          cases List.singleton_inj.1 hlast
          rw [ih operand']
      | before _ _ => exact (operand.not_after_of_before hmarks.symm).elim
      | binary _ _ hright => exact absurd hmarks ((Phrase.after operand).ne_binary hright)
  | @before rank name marks tree hrank operand ih =>
      intro rank' tree' h'
      generalize hmarks : .before name :: marks = whole at h'
      cases h' with
      | leaf => cases hmarks
      | group _ => cases hmarks
      | after operand' => exact (operand'.not_after_of_before hmarks).elim
      | before _ operand' =>
          cases hmarks
          rw [ih operand']
      | binary _ _ hright => exact absurd hmarks ((Phrase.before (by decide) operand).ne_binary hright)
  | @binary bound precedence name left right lhs rhs hbound hleft hright ihleft ihright =>
      intro rank' tree' h'
      generalize hmarks : left ++ .between name precedence :: right = whole at h'
      cases h' with
      | leaf => exact absurd hmarks.symm (Phrase.leaf.ne_binary hright)
      | group inner => exact absurd hmarks.symm ((Phrase.group inner).ne_binary hright)
      | after operand => exact absurd hmarks.symm ((Phrase.after operand).ne_binary hright)
      | before _ operand => exact absurd hmarks.symm ((Phrase.before (by decide) operand).ne_binary hright)
      | binary _ hleft' hright' =>
          obtain ⟨rfl, hmark, rfl⟩ := split_unique hleft hright hleft' hright' hmarks
          cases hmark
          rw [ihleft hleft', ihright hright']

end Phrase

/-- A sequence of marks reads as one tree at most. -/
theorem Parses.unique {marks : List (Mark α)} {tree tree' : OperatorTree α} (h : Parses marks tree)
    (h' : Parses marks tree') : tree = tree' := by
  obtain ⟨_, hphrase⟩ := h
  obtain ⟨_, hphrase'⟩ := h'
  exact hphrase.unique hphrase'

end ScriptBytecode
