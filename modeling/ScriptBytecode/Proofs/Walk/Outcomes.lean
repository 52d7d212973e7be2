/-
Module: ScriptBytecode.Proofs.Walk.Outcomes
Purpose: What comes of one instruction: the line that is written for it, and what it queues. A jump may be a `break`, a
  backward conditional jump ends its `do` loop or goes back by a `goto`, a `case` opens its arm, and whatever else there
  is queues markers that nothing is known to depend on.
Main exports: Setting.Conditions, Setting.Arm, Setting.States, Walk.Quiet, Walk.Comes, Walk.perform_comes,
  Walk.Comes.of_isDoUntil, Walk.OneMore, Walk.IsUntil, Walk.Speech, Walk.utter_speech
-/
import ScriptBytecode.Proofs.Body.Shapes
import ScriptBytecode.Proofs.Walk.Effects
import ScriptBytecode.Proofs.Walk.Frame

namespace ScriptBytecode

/-- An event that is neither part of the source nor of a marker: a label or a diagnostic. -/
def Event.isNote : Event → Bool
  | .label _ _ | .diagnostic _ _ _ => true
  | _ => false

/-!
### Statements
-/

namespace Setting

/-- The condition of a conditional jump can be written, and this is how. -/
def Conditions (setting : Setting) (i : Instruction) (condition : String) : Prop :=
  ∃ target operand remark, i.token = .jumpIfNot target operand ∧
    (operand.expression setting.words setting.scope).run none = .ok condition remark

/-- An instruction heads an arm of a `switch`: the kind of the arm, and how it is written. -/
inductive Arm (setting : Setting) (i : Instruction) : BlockKind → String → Prop where
  | caseOf {target : UInt16} {operand : Instruction} {value : String} {remark : Option String}
      (htoken : i.token = .caseLabel target (some operand))
      (hvalue : (operand.expression setting.words setting.scope).run none = .ok value remark) :
      Arm setting i .caseArm s!"case {value}:"
  | default {target : UInt16} (htoken : i.token = .caseLabel target none) : Arm setting i .defaultArm "default:"

theorem Arm.kind_cases {setting : Setting} {i : Instruction} {kind : BlockKind} {text : String}
    (h : setting.Arm i kind text) : kind = .caseArm ∨ kind = .defaultArm := by
  cases h with
  | caseOf _ _ => exact Or.inl rfl
  | default _ => exact Or.inr rfl

/-- What an instruction can be as a statement, and what is known of it then. -/
inductive States (setting : Setting) (insideSwitch : Bool) (i : Instruction) : Statement → Prop where
  | branch {target : UInt16} {operand : Instruction} {condition : String}
      (htoken : i.token = .jumpIfNot target operand) (hcondition : setting.Conditions i condition) :
      States setting insideSwitch i (.branch target.toNat condition)
  | jump {target : UInt16} (htoken : i.token = .jump target) : States setting insideSwitch i (.jump target.toNat)
  | caseArm {target : Nat} {value : String} (harm : setting.Arm i .caseArm s!"case {value}:")
      (hinside : insideSwitch = true) : States setting insideSwitch i (.caseArm target value)
  | defaultArm (harm : setting.Arm i .defaultArm "default:") (hinside : insideSwitch = true) :
      States setting insideSwitch i .defaultArm
  | other {statement : Statement} (hbranch : i.branchTarget? = none)
      (hcase : ∀ target value, i.token ≠ .caseLabel target value) (hjumps : statement.jumpsTo? = none)
      (harm : statement.isArm = false) : States setting insideSwitch i statement

theorem states_of_run {setting : Setting} {insideSwitch : Bool} {i : Instruction} {statement : Statement}
    {remark : Option String}
    (h : (i.statement setting.words setting.scope insideSwitch).run none = .ok statement remark) :
    setting.States insideSwitch i statement := by
  have hbranch := (i.statement_yields setting.words setting.scope insideSwitch _ _ _ h).1
  unfold Instruction.statement at h
  split at h
  case h_1 target operand htoken =>
    obtain ⟨condition, middle, hrun, hlast⟩ := bind_eq_ok h
    cases hlast
    exact .branch htoken ⟨target, operand, _, htoken, hrun⟩
  case h_2 target htoken =>
    cases h
    exact .jump htoken
  case h_5 target value htoken =>
    split at h
    · rename_i hinside
      split at h
      · cases h
        exact .defaultArm (.default htoken) hinside
      · obtain ⟨value, middle, hrun, hlast⟩ := bind_eq_ok h
        cases hlast
        exact .caseArm (.caseOf htoken hrun) hinside
    · cases h
  case h_7 htoken =>
    obtain ⟨array, _, -, h⟩ := bind_eq_ok h
    obtain ⟨item, _, -, h⟩ := bind_eq_ok h
    split at h
    · obtain ⟨_, _, -, h⟩ := bind_eq_ok h
      cases h
      exact .other hbranch.symm (by simp [htoken]) rfl rfl
    · cases h
      exact .other hbranch.symm (by simp [htoken]) rfl rfl
  case h_11 htoken =>
    split at h
    · cases h
      exact .other hbranch.symm (by simp [htoken]) rfl rfl
    · obtain ⟨_, _, -, h⟩ := bind_eq_ok h
      cases h
      exact .other hbranch.symm (by simp [htoken]) rfl rfl
  case h_12 =>
    obtain ⟨_, _, -, h⟩ := bind_eq_ok h
    cases h
    exact .other hbranch.symm (by assumption) rfl rfl
  case h_3 htoken | h_8 htoken =>
    cases h
    exact .other hbranch.symm (by simp [htoken]) rfl rfl
  all_goals
    rename_i htoken
    obtain ⟨_, _, -, h⟩ := bind_eq_ok h
    cases h
    exact .other hbranch.symm (by simp [htoken]) rfl rfl

end Setting

/-!
### What is queued
-/

theorem Blocks.openings_queueBegin (blocks : Blocks) (kind : BlockKind) (position creator stop : Nat)
    (header : Option String) (deferred : Bool) :
    (blocks.queueBegin kind position creator stop header deferred).2.openings =
      blocks.openings ++ [blocks.newBegin kind position creator stop header deferred] := by
  simp [openings, newBegin]

namespace Walk

/-- Markers are queued that are no `break` and no `until`. -/
inductive Quiet (blocks : Blocks) (i : Instruction) : Blocks → Prop where
  | nothing : Quiet blocks i blocks
  | begins {kind : BlockKind} (stop : Nat) (header : Option String)
      (hkind : kind ≠ .switchBreak ∧ (kind = .loop → i.isDoUntil = false)) :
      Quiet blocks i (blocks.queueBegin kind i.endPosition i.position stop header false).2
  | block {kind : BlockKind} (stop : Nat) (header : Option String)
      (hkind : kind ≠ .switchBreak ∧ (kind = .loop → i.isDoUntil = false)) :
      Quiet blocks i (blocks.queueBlock kind i.endPosition i.position stop header).2
  | ends (kind : BlockKind) (id : Nat) : Quiet blocks i (blocks.queueEnd kind id i.endPosition none)

/-- What comes of an instruction that can be written: its line, and the blocks after it. -/
inductive Comes (setting : Setting) (blocks : Blocks) (i : Instruction) : Line → Blocks → Prop where
  | breaks {line : Line} {target : UInt16} {block : OpenBlock} (htoken : i.token = .jump target)
      (hblock : blocks.innermostWhere? (·.isBreakable) = some block) (hstop : block.stop = target.toNat)
      (htext : line.text = "") : Comes setting blocks i line
        (blocks.queueBegin .switchBreak i.endPosition i.position i.endPosition (some "break;") false).2
  | arm {line : Line} {kind : BlockKind} (stop : Nat) (harm : setting.Arm i kind line.text)
      (hinside : blocks.isInside .switch = true) :
      Comes setting blocks i line (blocks.queueBlock kind i.endPosition i.position stop none).2
  | ends {line : Line} {condition : String} {id : Nat} (huntil : i.isDoUntil = true)
      (hcondition : setting.Conditions i condition)
      (hfound : blocks.findByCreator? .loop i.position = some id) (htext : line.text = "") :
      Comes setting blocks i line (blocks.queueEnd .loop id i.endPosition (some s!"until({condition});"))
  | goesBack {line : Line} {condition name : String} (huntil : i.isDoUntil = true)
      (hcondition : setting.Conditions i condition)
      (hnone : blocks.findByCreator? .loop i.position = none)
      (htext : line.text = s!"if(!({condition})) goto {name}") (hterminated : line.terminated = true) :
      Comes setting blocks i line blocks
  | other {line : Line} {next : Blocks} (hquiet : Quiet blocks i next)
      (hcase : ∀ target value, i.token ≠ .caseLabel target value) (huntil : i.isDoUntil = false)
      (hcontinue : ∀ target, i.token = .jump target → line.text = "continue" →
        ∃ block, blocks.innermostWhere? (·.isBreakable) = some block ∧
          (block.kind = .loop ∨ block.kind = .forEach)) : Comes setting blocks i line next

variable {setting : Setting} {walk : Walk} {i : Instruction}

/-- Only a loop or a `foreach` can be continued. -/
theorem kind_of_continues {target : Nat} (h : walk.continues i target = true) :
    ∃ block, walk.blocks.innermostWhere? (·.isBreakable) = some block ∧
      (block.kind = .loop ∨ block.kind = .forEach) := by
  obtain ⟨block, hblock, hkind⟩ := (Option.any_eq_true ..).1 h
  refine ⟨block, hblock, ?_⟩
  split at hkind
  · exact Or.inr ‹_›
  · exact Or.inl ‹_›
  · cases hkind

/-- The text of a `goto` behind a condition. -/
theorem gotoText_branch {lead condition : String} (hlead : lead = s!"if(!({condition})) ") (name : String) :
    s!"{lead}goto {name}" = s!"if(!({condition})) goto {name}" := by
  have hjoin : ")) goto " = ")) " ++ "goto " := rfl
  simp only [hlead, toString, hjoin, String.append_assoc]

theorem gotoText_ne_continue {lead : String} (hlead : lead = "") (name : String) :
    s!"{lead}goto {name}" ≠ "continue" := by
  intro htext
  have hletters := congrArg (fun text => text.toList.head?) htext
  simp [hlead, toString] at hletters

theorem branch_comes {target : UInt16} {operand : Instruction} {condition : String} {remark : Option String}
    (htoken : i.token = .jumpIfNot target operand) (hcondition : setting.Conditions i condition) :
    Comes setting walk.blocks i ((walk.branch setting.body i target.toNat condition).1.line i remark)
      (walk.branch setting.body i target.toNat condition).2.blocks := by
  have hquiet : ∀ {line : Line} {blocks : Blocks}, i.isDoUntil = false → Quiet walk.blocks i blocks →
      Comes setting walk.blocks i line blocks := fun huntil hquiet =>
    .other hquiet (by simp [htoken]) huntil (by simp [htoken])
  unfold Walk.branch
  split
  · rename_i huntil
    split
    · rename_i id hfound
      exact .ends huntil hcondition hfound rfl
    · rename_i hnone
      exact .goesBack huntil hcondition hnone (gotoText_branch rfl _) rfl
  · rename_i huntil
    have hforward : i.isDoUntil = false := Bool.eq_false_iff.2 huntil
    split
    · exact hquiet hforward (.block target.toNat _ ⟨by decide, fun _ => hforward⟩)
    · exact hquiet hforward (.block target.toNat _ ⟨by decide, fun _ => hforward⟩)

theorem jump_comes {target : UInt16} {remark : Option String} (htoken : i.token = .jump target) :
    Comes setting walk.blocks i ((walk.jump i target.toNat).1.line i remark) (walk.jump i target.toNat).2.blocks := by
  have huntil := Instruction.isDoUntil_of_jump htoken
  have hquiet : ∀ {line : Line} {blocks : Blocks}, Quiet walk.blocks i blocks → line.text ≠ "continue" →
      Comes setting walk.blocks i line blocks := fun hquiet htext =>
    .other hquiet (by simp [htoken]) huntil fun _ _ hcontinue => absurd hcontinue htext
  unfold Walk.jump
  split
  · exact hquiet .nothing (show "" ≠ "continue" by decide)
  · split
    · rename_i hbreak
      obtain ⟨block, hblock, hstop⟩ := Option.map_eq_some_iff.1 (beq_iff_eq.1 hbreak)
      exact .breaks htoken hblock hstop rfl
    · split
      · exact hquiet (.block target.toNat none ⟨by decide, fun hloop => by cases hloop⟩)
          (show "" ≠ "continue" by decide)
      · split
        · rename_i hcontinues
          exact .other .nothing (by simp [htoken]) huntil fun _ _ _ => kind_of_continues hcontinues
        · exact hquiet .nothing (gotoText_ne_continue rfl _)

/-- What an instruction comes to is decided by its statement. -/
theorem perform_comes {statement : Statement} (h : setting.States (walk.blocks.isInside .switch) i statement)
    (index : Nat) (remark : Option String) :
    Comes setting walk.blocks i ((walk.perform setting.body index i statement).1.line i remark)
      (walk.perform setting.body index i statement).2.blocks := by
  cases h with
  | branch htoken hcondition => exact branch_comes htoken hcondition
  | jump htoken => exact jump_comes htoken
  | @caseArm target value harm hinside => exact .arm target harm hinside
  | defaultArm harm hinside => exact .arm _ harm hinside
  | other hbranch hcase hjumps harm =>
      have hunconditional : i.token.condTarget? = none := by
        unfold Instruction.branchTarget? at hbranch
        generalize i.token = token at hbranch
        cases token with
        | jumpIfNot target condition => cases hbranch
        | _ => rfl
      have hquiet : ∀ {line : Line} {blocks : Blocks}, Quiet walk.blocks i blocks →
          Comes setting walk.blocks i line blocks := fun hquiet =>
        .other hquiet hcase (Instruction.isDoUntil_of_condTarget? hunconditional) fun target htoken => by
          rw [Instruction.branchTarget?, htoken] at hbranch
          cases hbranch
      have hplain : ∀ kind : BlockKind, kind ≠ .switchBreak → kind ≠ .loop →
          kind ≠ .switchBreak ∧ (kind = .loop → i.isDoUntil = false) :=
        fun kind hbreak hloop => ⟨hbreak, fun heq => absurd heq hloop⟩
      cases statement with
      | branch _ _ | jump _ => cases hjumps
      | caseArm _ _ | defaultArm => cases harm
      | plain _ _ | remark _ | silent => exact hquiet .nothing
      | editorOnly target => exact hquiet (.block target _ (hplain .ifBlock (by decide) (by decide)))
      | switch value => exact hquiet (.block _ _ (hplain .switch (by decide) (by decide)))
      | forEach header stop => exact hquiet (.begins stop _ (hplain .forEach (by decide) (by decide)))
      | iteratorPop =>
          apply hquiet
          change Quiet walk.blocks i (walk.iteratorPop i).blocks
          unfold Walk.iteratorPop
          split
          · split
            · exact .ends .forEach _
            · exact .nothing
          · exact .nothing

/-!
### By kind of instruction
-/

theorem isDoUntil_of_arm {kind : BlockKind} {text : String} (h : setting.Arm i kind text) : i.isDoUntil = false := by
  cases h with
  | caseOf htoken _ => rw [Instruction.isDoUntil, htoken]
  | default htoken => rw [Instruction.isDoUntil, htoken]

theorem token_of_arm {kind : BlockKind} {text : String} (h : setting.Arm i kind text) :
    ∃ target value, i.token = .caseLabel target value := by
  cases h with
  | caseOf htoken _ => exact ⟨_, _, htoken⟩
  | default htoken => exact ⟨_, _, htoken⟩

variable {blocks next : Blocks} {line : Line}

/-- A jump back ends its loop if that is open, and is a `goto` if it is not. -/
theorem Comes.of_isDoUntil (h : Comes setting blocks i line next) (huntil : i.isDoUntil = true) :
    ∃ condition, setting.Conditions i condition ∧
      ((∃ id, blocks.findByCreator? .loop i.position = some id ∧ line.text = "" ∧
          next = blocks.queueEnd .loop id i.endPosition (some s!"until({condition});")) ∨
        (blocks.findByCreator? .loop i.position = none ∧ line.terminated = true ∧ next = blocks ∧
          ∃ name : String, line.text = s!"if(!({condition})) goto {name}")) := by
  cases h with
  | breaks htoken _ _ _ => cases (Instruction.isDoUntil_of_jump htoken).symm.trans huntil
  | arm _ harm _ => cases (isDoUntil_of_arm harm).symm.trans huntil
  | ends _ hcondition hfound htext => exact ⟨_, hcondition, Or.inl ⟨_, hfound, htext, rfl⟩⟩
  | goesBack _ hcondition hnone htext hterminated =>
      exact ⟨_, hcondition, Or.inr ⟨hnone, hterminated, rfl, _, htext⟩⟩
  | other _ _ hforward _ => cases hforward.symm.trans huntil

/-- A `case` opens its arm. -/
theorem Comes.of_caseLabel (h : Comes setting blocks i line next) {target : UInt16} {value : Option Instruction}
    (htoken : i.token = .caseLabel target value) :
    ∃ kind stop, setting.Arm i kind line.text ∧ blocks.isInside .switch = true ∧
      next = (blocks.queueBlock kind i.endPosition i.position stop none).2 := by
  have hforward : i.isDoUntil = false := by rw [Instruction.isDoUntil, htoken]
  cases h with
  | breaks hjump _ _ _ => cases hjump.symm.trans htoken
  | arm stop harm hinside => exact ⟨_, stop, harm, hinside, rfl⟩
  | ends huntil _ _ _ => cases hforward.symm.trans huntil
  | goesBack huntil _ _ _ _ => cases hforward.symm.trans huntil
  | other _ hcase _ _ => exact absurd htoken (hcase target value)

/-- A jump is a `continue` inside a loop or a `foreach` only. -/
theorem Comes.of_continue (h : Comes setting blocks i line next) {target : UInt16} (htoken : i.token = .jump target)
    (htext : line.text = "continue") :
    ∃ block, blocks.innermostWhere? (·.isBreakable) = some block ∧ (block.kind = .loop ∨ block.kind = .forEach) := by
  have hforward := Instruction.isDoUntil_of_jump htoken
  cases h with
  | breaks _ _ _ hempty => exact absurd (hempty.symm.trans htext) (by decide)
  | arm _ harm _ =>
      obtain ⟨other, value, hcase⟩ := token_of_arm harm
      cases hcase.symm.trans htoken
  | ends huntil _ _ _ => cases hforward.symm.trans huntil
  | goesBack huntil _ _ _ _ => cases hforward.symm.trans huntil
  | other _ _ _ hcontinue => exact hcontinue target htoken htext

/-!
### Markers of an instruction
-/

/-- Begins that are in the queue after an instruction: one more at most, made by the instruction. -/
def OneMore (i : Instruction) (before after : Blocks) : Prop :=
  after.openings = before.openings ∨
    ∃ m, after.openings = before.openings ++ [m] ∧ m.deferred = false ∧ m.creator = i.position ∧
      (m.kind = .loop → i.isDoUntil = false)

theorem oneMore_queueBegin (blocks : Blocks) {kind : BlockKind} (hloop : kind = .loop → i.isDoUntil = false)
    (stop : Nat) (header : Option String) :
    OneMore i blocks (blocks.queueBegin kind i.endPosition i.position stop header false).2 := by
  exact Or.inr ⟨_, Blocks.openings_queueBegin .., rfl, rfl, hloop⟩

theorem oneMore_queueBlock (blocks : Blocks) {kind : BlockKind} (hloop : kind = .loop → i.isDoUntil = false)
    (stop : Nat) (header : Option String) :
    OneMore i blocks (blocks.queueBlock kind i.endPosition i.position stop header).2 := by
  have hbegin := oneMore_queueBegin blocks hloop stop header
  unfold OneMore at hbegin ⊢
  rwa [Blocks.queueBlock, Blocks.openings_queueEnd]

theorem Comes.oneMore (h : Comes setting blocks i line next) :
    OneMore i blocks next := by
  cases h with
  | breaks _ _ _ _ => exact oneMore_queueBegin blocks (fun hloop => by cases hloop) _ _
  | arm stop harm _ =>
      apply oneMore_queueBlock blocks
      intro hloop
      rcases harm.kind_cases with hkind | hkind <;> cases hkind.symm.trans hloop
  | ends _ _ _ _ => exact Or.inl (Blocks.openings_queueEnd ..)
  | goesBack _ _ _ _ _ => exact Or.inl rfl
  | other hquiet _ _ _ =>
      cases hquiet with
      | nothing => exact Or.inl rfl
      | begins stop header hkind => exact oneMore_queueBegin blocks hkind.2 stop header
      | block stop header hkind => exact oneMore_queueBlock blocks hkind.2 stop header
      | ends kind id => exact Or.inl (Blocks.openings_queueEnd ..)

/-- A `break` that an instruction queues is that of a jump to the end of what it leaves. -/
theorem Comes.of_break (h : Comes setting blocks i line next) {m : Marker} (hm : m ∈ next.openings)
    (hkind : m.kind = .switchBreak) :
    m ∈ blocks.openings ∨ m.text = some "break;" ∧ line.text = "" ∧ ∃ target block, i.token = .jump target ∧
      blocks.innermostWhere? (·.isBreakable) = some block ∧ block.stop = target.toNat := by
  have hbegin : ∀ {kind : BlockKind} {stop : Nat} {header : Option String}, kind ≠ .switchBreak →
      m ∈ (blocks.queueBegin kind i.endPosition i.position stop header false).2.openings → m ∈ blocks.openings := by
    intro kind stop header hother hm
    rw [Blocks.openings_queueBegin, List.mem_append, List.mem_singleton] at hm
    rcases hm with hm | rfl
    · exact hm
    · exact absurd hkind hother
  cases h with
  | breaks htoken hblock hstop htext =>
      rw [Blocks.openings_queueBegin, List.mem_append, List.mem_singleton] at hm
      rcases hm with hm | rfl
      · exact Or.inl hm
      · exact Or.inr ⟨rfl, htext, _, _, htoken, hblock, hstop⟩
  | arm stop harm _ =>
      rw [Blocks.queueBlock, Blocks.openings_queueEnd] at hm
      refine Or.inl (hbegin ?_ hm)
      rcases harm.kind_cases with rfl | rfl <;> decide
  | ends _ _ _ _ => exact Or.inl (Blocks.openings_queueEnd .. ▸ hm)
  | goesBack _ _ _ _ _ => exact Or.inl hm
  | other hquiet _ _ _ =>
      cases hquiet with
      | nothing => exact Or.inl hm
      | begins stop header hother => exact Or.inl (hbegin hother.1 hm)
      | block stop header hother =>
          rw [Blocks.queueBlock, Blocks.openings_queueEnd] at hm
          exact Or.inl (hbegin hother.1 hm)
      | ends kind id => exact Or.inl (Blocks.openings_queueEnd .. ▸ hm)

/-- The end of a `do` loop, as the jump that ends it queues it. -/
def IsUntil (setting : Setting) (blocks : Blocks) (i : Instruction) (m : Marker) : Prop :=
  i.isDoUntil = true ∧ m.kind = .loop ∧ m.position = i.endPosition ∧
    blocks.findByCreator? .loop i.position = some m.id ∧
    ∃ condition, setting.Conditions i condition ∧ m.text = some s!"until({condition});"

theorem end_of_queueBegin {kind : BlockKind} {position creator stop : Nat} {header : Option String}
    {deferred : Bool} {m : Marker} (hm : m ∈ (blocks.queueBegin kind position creator stop header deferred).2.pending)
    (hside : m.side = .closing) : m ∈ blocks.pending := by
  rw [Blocks.queueBegin_pending, List.mem_append, List.mem_singleton] at hm
  rcases hm with hm | rfl
  · exact hm
  · cases hside

theorem end_of_queueEnd {kind : BlockKind} {id position : Nat} {footer : Option String} {m : Marker}
    (hm : m ∈ (blocks.queueEnd kind id position footer).pending) :
    m ∈ blocks.pending ∨ m = blocks.newEnd kind id position footer := by
  rw [Blocks.queueEnd_eq, List.mem_append, List.mem_singleton] at hm
  exact hm

/-- Ends that an instruction queues have no footer, but for those of `do` loops. -/
theorem Comes.ends_cases (h : Comes setting blocks i line next) {m : Marker}
    (hm : m ∈ next.pending) (hside : m.side = .closing) :
    m ∈ blocks.pending ∨ m.text = none ∨ IsUntil setting blocks i m := by
  have hblock : ∀ {kind : BlockKind} {stop : Nat} {header : Option String},
      m ∈ (blocks.queueBlock kind i.endPosition i.position stop header).2.pending →
        m ∈ blocks.pending ∨ m.text = none := by
    intro kind stop header hm
    rcases end_of_queueEnd hm with hm | rfl
    · exact Or.inl (end_of_queueBegin hm hside)
    · exact Or.inr rfl
  cases h with
  | breaks _ _ _ _ => exact Or.inl (end_of_queueBegin hm hside)
  | arm stop harm _ => exact (hblock hm).imp_right Or.inl
  | ends huntil hcondition hfound _ =>
      rcases end_of_queueEnd hm with hm | rfl
      · exact Or.inl hm
      · exact Or.inr (Or.inr ⟨huntil, rfl, rfl, hfound, _, hcondition, rfl⟩)
  | goesBack _ _ _ _ _ => exact Or.inl hm
  | other hquiet _ _ _ =>
      cases hquiet with
      | nothing => exact Or.inl hm
      | begins stop header _ => exact Or.inl (end_of_queueBegin hm hside)
      | block stop header _ => exact (hblock hm).imp_right Or.inl
      | ends kind id =>
          rcases end_of_queueEnd hm with hm | rfl
          · exact Or.inl hm
          · exact Or.inr (Or.inl rfl)

/-!
### Events of an instruction
-/

theorem writeLabel_events (walk : Walk) (position : Nat) :
    ∃ notes, (walk.writeLabel position).events.toList = walk.events.toList ++ notes ∧
      ∀ e ∈ notes, e.isNote = true := by
  unfold Walk.writeLabel
  split
  split
  · rename_i label _
    refine ⟨[.label label.name label.position], Array.toList_push, fun e he => ?_⟩
    obtain rfl := List.mem_singleton.1 he
    rfl
  · exact ⟨[], (List.append_nil _).symm, fun e he => absurd he List.not_mem_nil⟩

/-- What an instruction adds: nothing, or why it cannot be written, or its line. -/
def Speech (setting : Setting) (blocks : Blocks) (i : Instruction) (said : List Event) (next : Blocks) : Prop :=
  (next = blocks ∧ ∀ e ∈ said, e.isNote = true) ∨
    ∃ line, said = [.statement line] ∧ line.position = i.position ∧ Comes setting blocks i line next

theorem Speech.oneMore {said : List Event} (h : Speech setting blocks i said next) : OneMore i blocks next := by
  rcases h with ⟨rfl, -⟩ | ⟨line, -, -, hcomes⟩
  · exact Or.inl rfl
  · exact hcomes.oneMore

theorem Speech.ends_cases {said : List Event} (h : Speech setting blocks i said next) {m : Marker}
    (hm : m ∈ next.pending) (hside : m.side = .closing) :
    m ∈ blocks.pending ∨ m.text = none ∨ IsUntil setting blocks i m := by
  rcases h with ⟨rfl, -⟩ | ⟨line, -, -, hcomes⟩
  · exact Or.inl hm
  · exact hcomes.ends_cases hm hside

theorem write_speech (setting : Setting) (walk : Walk) (i : Instruction) (index : Nat) :
    ∃ said, (walk.write setting index i).events.toList = walk.events.toList ++ said ∧
      Speech setting walk.blocks i said (walk.write setting index i).blocks := by
  unfold Walk.write
  dsimp only
  split
  · rename_i statement remark hrun
    have hcomes := perform_comes (Setting.states_of_run hrun) index remark
    refine ⟨[.statement ((walk.perform setting.body index i statement).1.line i remark)], ?_,
      Or.inr ⟨_, rfl, rfl, hcomes⟩⟩
    rw [← perform_events walk setting.body index i statement]
    exact Array.toList_push
  · rename_i error remark _
    refine ⟨[.diagnostic i.position error remark], Array.toList_push, Or.inl ⟨rfl, fun e he => ?_⟩⟩
    obtain rfl := List.mem_singleton.1 he
    rfl

/-- The events of an instruction before markers take effect: its label, and then what it says. -/
theorem utter_speech (setting : Setting) (walk : Walk) (i : Instruction) (index : Nat) :
    ∃ notes said, (walk.utter setting i index).events.toList = walk.events.toList ++ (notes ++ said) ∧
      (∀ e ∈ notes, e.isNote = true) ∧ Speech setting walk.blocks i said (walk.utter setting i index).blocks := by
  obtain ⟨notes, hevents, hnotes⟩ := walk.writeLabel_events i.position
  have hblocks := walk.writeLabel_blocks i.position
  have hsilent : (walk.writeLabel i.position).events.toList = walk.events.toList ++ (notes ++ []) := by
    rw [List.append_nil, hevents]
  have hnothing : Speech setting walk.blocks i [] (walk.writeLabel i.position).blocks :=
    Or.inl ⟨hblocks, fun e he => absurd he List.not_mem_nil⟩
  unfold Walk.utter
  dsimp only
  split
  · exact ⟨notes, [], hsilent, hnotes, hnothing⟩
  · split
    · exact ⟨notes, [], hsilent, hnotes, hnothing⟩
    · obtain ⟨said, hwrite, hspeech⟩ := write_speech setting (walk.writeLabel i.position) i index
      refine ⟨notes, said, ?_, hnotes, hblocks ▸ hspeech⟩
      rw [hwrite, hevents, List.append_assoc]

/-- A conditional jump whose condition can be written is written. -/
theorem exists_line_of_conditions {condition : String} (hcondition : setting.Conditions i condition)
    (hvisible : i.opcode.isHidden = false) {index : Nat} (hi : setting.body.instructions[index]? = some i)
    (walk : Walk) :
    ∃ line, .statement line ∈ (walk.utter setting i index).events.toList ∧ line.position = i.position := by
  obtain ⟨target, operand, remark, htoken, hrun⟩ := hcondition
  have himplicit : setting.body.isImplicitReturn index = false := by
    simp [Body.isImplicitReturn, hi, htoken]
  have hstatement : ∀ insideSwitch, (i.statement setting.words setting.scope insideSwitch).run none =
      .ok (.branch target.toNat condition) remark := by
    intro insideSwitch
    rw [Instruction.statement, htoken]
    exact bind_of_ok hrun rfl
  refine ⟨((walk.writeLabel i.position).perform setting.body index i (.branch target.toNat condition)).1.line i remark,
    ?_, rfl⟩
  unfold Walk.utter
  simp only [hvisible, himplicit, Bool.and_false, Bool.false_eq_true, if_false]
  unfold Walk.write
  simp only [hstatement]
  exact List.mem_of_getLast? (by rw [emit, Array.toList_push, List.getLast?_concat]; rfl)

end Walk

end ScriptBytecode
