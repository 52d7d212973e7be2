/-
Module: ScriptBytecode.Proofs.Hidden.Tolerance
Purpose: When the source does not show that instructions are hidden. The walk recognises shapes of jumps by exact
  positions, and lets the markers and labels between two shown instructions take effect in the order of their positions.
  Once the hidden instructions are gone such positions fall together. A setting tolerates its hidden instructions if no
  comparison that the walk makes turns out another way, and if the order is the same.
Main exports: Body.Apart, Body.LoopsApart, Body.CasesApart, Setting.labelPlaces, Walk.ElseApart, Walk.Tells,
  Setting.Tolerant
-/
import ScriptBytecode.Proofs.Hidden.Landings
import ScriptBytecode.Proofs.Walk.Containment

namespace ScriptBytecode

namespace Body

/-- The positions are the same, or a shown instruction lies between them. -/
def Apart (body : Body) (p q : Nat) : Prop := body.compact p = body.compact q → p = q

/-- A jump that comes to close a loop once the hidden instructions are gone closes it already: it ends where the guard
    of the loop leads, and leads to the guard. -/
def LoopsApart (body : Body) : Prop :=
  ∀ guard ∈ body.instructions.toList, ∀ stop ∈ guard.token.condTarget?,
    ∀ j ∈ body.instructions.toList, j.opcode = .jump → ∀ back ∈ j.jumpTarget?, guard.endPosition ≤ j.position →
      body.compact j.endPosition = body.compact stop → body.compact back = body.compact guard.position →
        j.endPosition = stop ∧ back = guard.position

/-- The positions at which cases of a `switch` are looked for. -/
def caseStarts (body : Body) : List Nat :=
  (body.instructions.toList.filter (·.opcode == .switch)).map (·.endPosition) ++
    body.instructions.toList.filterMap (·.token.caseExit?.join)

/-- Cases are looked for among hidden instructions at the end of the code only if nothing is declared past them. -/
def CasesApart (body : Body) : Prop :=
  body.declaredSize ≤ body.consumed ∨
    ∀ p ∈ body.caseStarts, body.compact p = body.compact body.consumed → body.consumed ≤ p

/-- The positions at which `do` loops begin. -/
def loopStarts (body : Body) : List Nat :=
  (body.instructions.toList.filter (·.isDoUntil)).filterMap (·.jumpTarget?)

theorem mem_caseStarts_of_switch {body : Body} {i : Instruction} (hi : i ∈ body.instructions.toList)
    (hswitch : i.opcode = .switch) : i.endPosition ∈ body.caseStarts :=
  List.mem_append_left _ (List.mem_map_of_mem (List.mem_filter.2 ⟨hi, by simp [hswitch]⟩))

theorem mem_caseStarts_of_case {body : Body} {i : Instruction} {t : Nat} (hi : i ∈ body.instructions.toList)
    (hexit : i.token.caseExit? = some (some t)) : t ∈ body.caseStarts :=
  List.mem_append_right _ (List.mem_filterMap.2 ⟨i, hi, by rw [hexit]; rfl⟩)

theorem mem_loopStarts {body : Body} {p : Nat} :
    p ∈ body.loopStarts ↔ ∃ i ∈ body.instructions.toList, i.isDoUntil = true ∧ i.jumpTarget? = some p := by
  simp [loopStarts, and_assoc]

instance (body : Body) (p q : Nat) : Decidable (body.Apart p q) := by
  unfold Apart
  infer_instance

instance (body : Body) : Decidable body.LoopsApart := by
  unfold LoopsApart
  infer_instance

instance (body : Body) : Decidable body.CasesApart := by
  unfold CasesApart
  infer_instance

end Body

/-!
### Jumps
-/

namespace Walk

/-- The jump stays an `else` of an `if` from `start` to `stop`, or stays none. -/
@[mk_iff]
structure ElseApart (body : Body) (walk : Walk) (j : Instruction) (target start stop : Nat) : Prop where
  /-- Nothing hidden stands between the jump and the end of the `if`. -/
  last : body.compact j.endPosition = body.compact stop → body.compact j.endPosition < body.compact target →
    ¬ (walk.continues j target = true ∧ body.compact start = body.compact j.position) → j.endPosition = stop
  /-- The `else` is not made of hidden instructions alone. -/
  filled : j.endPosition = stop → j.endPosition < target → ¬ (walk.continues j target = true ∧ start = j.position) →
    body.compact j.endPosition < body.compact target
  /-- A `continue` that is alone in its `if` has nothing hidden before it. -/
  alone : j.endPosition = stop → j.endPosition < target → walk.continues j target = true → body.Apart start j.position

/-- The jump keeps the shape that it has among the blocks that are open. -/
@[mk_iff]
structure Tells (body : Body) (walk : Walk) (j : Instruction) (target : Nat) : Prop where
  /-- It stays a `break`, or stays none. -/
  breaks : ∀ block ∈ walk.blocks.innermostWhere? (·.isBreakable), body.Apart target block.stop
  /-- If it leads to hidden instructions in front of the guard of the loop around it, it leads to the guard. -/
  continues : ∀ block ∈ walk.blocks.innermostWhere? (·.isBreakable), block.kind = .loop →
    body.Apart target block.creator
  /-- If it leads to where the advance of the iterator comes to stand, it leads to the advance. -/
  advances : ∀ block ∈ walk.blocks.innermostWhere? (·.isBreakable), block.kind = .forEach →
    body.compact target + iteratorNextSize = body.compact block.stop → target + iteratorNextSize = block.stop
  /-- If it is no `break`, it stays an `else`, or stays none. -/
  elses : isBreak target ((walk.blocks.innermostWhere? (·.isBreakable)).map (·.stop)) = false →
    ∀ top ∈ walk.blocks.innermost?, top.kind = .ifBlock → ∀ ending ∈ walk.blocks.pendingEnd? top.id,
      walk.ElseApart body j target top.start ending.position

instance (body : Body) (walk : Walk) (j : Instruction) (target start stop : Nat) :
    Decidable (walk.ElseApart body j target start stop) :=
  decidable_of_iff _ (elseApart_iff ..).symm

instance (body : Body) (walk : Walk) (j : Instruction) (target : Nat) : Decidable (walk.Tells body j target) :=
  decidable_of_iff _ (tells_iff ..).symm

/-- The shape of a jump hangs on the blocks alone. -/
theorem Tells.congr {body : Body} {walk other : Walk} {j : Instruction} {target : Nat} (h : walk.Tells body j target)
    (hblocks : other.blocks = walk.blocks) : other.Tells body j target := by
  have hcontinues : other.continues j target = walk.continues j target := by
    unfold Walk.continues
    rw [hblocks]
  constructor
  · rw [hblocks]
    exact h.breaks
  · rw [hblocks]
    exact h.continues
  · rw [hblocks]
    exact h.advances
  · rw [hblocks]
    intro hbreak top htop hif ending hending
    obtain ⟨hlast, hfilled, halone⟩ := h.elses hbreak top htop hif ending hending
    constructor
    · rw [hcontinues]
      exact hlast
    · rw [hcontinues]
      exact hfilled
    · rw [hcontinues]
      exact halone

end Walk

/-- The table has a name for the position, or a jump back has missed one there. -/
def LabelTable.Mentions (table : LabelTable) (p : Nat) : Prop :=
  (∃ name, table.nameAt? p = some name) ∨ p ∈ table.missed

/-- A jump leaves its target mentioned. -/
theorem LabelTable.mentions_target (table : LabelTable) (target origin : Nat) :
    (table.target target origin).2.Mentions target := by
  rcases table.target_cases target origin with ⟨name, hname, htarget⟩ | ⟨-, -, htarget⟩ | ⟨hnone, -, htarget⟩
  · rw [htarget]
    exact Or.inl ⟨name, hname⟩
  · rw [htarget]
    exact Or.inr Std.TreeSet.mem_insert_self
  · rw [htarget]
    exact Or.inl ⟨_, nameAt?_register_self _ hnone⟩

/-!
### Settings
-/

/-- Where a label stands. -/
def Event.labelPosition? : Event → Option Nat
  | .label _ position => some position
  | _ => none

/-- What is asked of every entry of a list and its index can be checked entry by entry. -/
instance decidableForallGetElem? {α : Type} {l : List α} {P : Nat → α → Prop} [∀ index a, Decidable (P index a)] :
    Decidable (∀ index a, l[index]? = some a → P index a) :=
  decidable_of_iff (∀ x ∈ l.zipIdx, P x.2 x.1)
    ⟨fun hall index a hindex => hall (a, index) (List.mk_mem_zipIdx_iff_getElem?.2 hindex),
      fun hall x hx => hall x.2 x.1 (List.mem_zipIdx_iff_getElem?.1 hx)⟩

namespace Setting

/-- The positions of the labels of the source. -/
def labelPlaces (setting : Setting) : List Nat := setting.events.toList.filterMap Event.labelPosition?

/-- The source does not show which instructions are hidden. -/
@[mk_iff]
structure Tolerant (setting : Setting) : Prop where
  loops : setting.body.LoopsApart
  cases : setting.body.CasesApart
  /-- Every jump keeps the shape that the walk finds it in. -/
  jumps : ∀ index j, setting.body.instructions.toList[index]? = some j → j.opcode = .jump →
    ∀ target ∈ j.jumpTarget?, (setting.walkTo [] index).Tells setting.body j target
  /-- Behind a label or the begin of a `do` loop, no block ends before the next shown instruction. -/
  ends : ∀ index i, setting.body.instructions.toList[index]? = some i →
    i.position ∈ setting.labelPlaces ∨ i.position ∈ setting.body.loopStarts →
      ∀ m ∈ (setting.walkTo [] index).blocks.pending, m.side = .closing →
        setting.body.compact m.position ≠ setting.body.compact i.position
  /-- Of two `do` loops that begin before the same shown instruction, the one that begins first ends last. -/
  begins : ∀ i ∈ setting.body.instructions.toList, ∀ j ∈ setting.body.instructions.toList,
    i.isDoUntil = true → j.isDoUntil = true → ∀ p ∈ i.jumpTarget?, ∀ q ∈ j.jumpTarget?,
      p < q → setting.body.compact p = setting.body.compact q → j.endPosition ≤ i.endPosition
  /-- Before a shown instruction there is one label at most, and it stands behind the begins of `do` loops. -/
  labels : ∀ p ∈ setting.labelPlaces,
    (∀ d ∈ setting.body.loopStarts, setting.body.compact d = setting.body.compact p → d ≤ p) ∧
      ∀ q ∈ setting.labelPlaces, setting.body.Apart p q
  /-- Labels stand among hidden instructions at the end of the code only if nothing is declared past them. -/
  ending : setting.body.declaredSize ≤ setting.body.consumed ∨
    ∀ p ∈ setting.labelPlaces, setting.body.compact p = setting.body.compact setting.body.consumed →
      setting.body.consumed ≤ p

instance (setting : Setting) : Decidable setting.Tolerant := decidable_of_iff _ (tolerant_iff _).symm

/-!
### The walks that the source is recovered by
-/

/-- The seeds of the first walk, or those of the second. -/
def Recovers (setting : Setting) (seeds : List Nat) : Prop :=
  seeds = [] ∨ seeds = (setting.walk []).labels.missed.toList

variable {setting : Setting} (htiles : Tiles 0 0 setting.body.instructions.toList)

include htiles

theorem agrees_missed (count : Nat) :
    Walk.Agrees (setting.walk []).labels.missed.toList (setting.walkTo [] count)
      (setting.walkTo (setting.walk []).labels.missed.toList count) := by
  apply agrees_walkTo htiles
  intro p
  rw [Std.TreeSet.mem_toList, missed_walk]

/-- Both walks have the same blocks. -/
theorem Recovers.blocks {seeds : List Nat} (h : setting.Recovers seeds) (count : Nat) :
    (setting.walkTo seeds count).blocks = (setting.walkTo [] count).blocks := by
  rcases h with hseeds | hseeds
  · rw [hseeds]
  · rw [hseeds]
    exact (agrees_missed htiles count).blocks

end Setting

end ScriptBytecode
