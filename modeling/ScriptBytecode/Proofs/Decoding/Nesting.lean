/-
Module: ScriptBytecode.Proofs.Decoding.Nesting
Purpose: Nested operands stay inside the instruction that holds them, in order. The operands of an instruction form a
  chain of reads behind its code; hidden instructions, terminators and other fields stand between the links. What holds
  of every instruction that can be read holds at every depth of every tree, by one induction over the levels.
Main exports: Chain, Instruction.Contains, Instruction.Everywhere, Body.Everywhere, decode_everywhere,
  Instruction.Nests, decode_nests
-/
import ScriptBytecode.Proofs.Decoding.Fields
import ScriptBytecode.Proofs.Decoding.Loop

namespace ScriptBytecode

/-!
### Chains of operands
-/

/-- Instructions that have been read one after the other between two places, with gaps before, between and behind
    them. None of them was announced as hidden. -/
inductive Chain (dialect : Dialect) (levels : Nat) : Place → List Instruction → Place → Prop where
  | nil {place next : Place} (hreach : place.Reaches next) : Chain dialect levels place [] next
  | cons {place start stop next : Place} {i : Instruction} {rest : List Instruction}
      (hreach : place.Reaches start) (hvisible : ¬start.ShowsHidden dialect)
      (hread : readInstruction dialect levels start = .ok i stop)
      (hrest : Chain dialect levels stop rest next) : Chain dialect levels place (i :: rest) next

/-- The first instruction ends before the second one starts, in both address spaces. -/
def Instruction.Precedes (i j : Instruction) : Prop :=
  i.endPosition ≤ j.position ∧ i.storageEnd ≤ j.storagePosition

/-- The instruction starts behind the first place and ends before the second one, in both address spaces. -/
def Instruction.Between (place next : Place) (i : Instruction) : Prop :=
  (place.position ≤ i.position ∧ place.input.offset ≤ i.storagePosition) ∧
    (i.endPosition ≤ next.position ∧ i.storageEnd ≤ next.input.offset)

namespace Chain

variable {dialect : Dialect} {levels : Nat} {place middle next : Place} {operands more : List Instruction}

/-- A gap in front of a chain. -/
theorem after (hreach : place.Reaches middle) (h : Chain dialect levels middle operands next) :
    Chain dialect levels place operands next := by
  cases h with
  | nil hnext => exact .nil (Place.Reaches.preorderly.trans hreach hnext)
  | cons hstart hvisible hread hrest =>
      exact .cons (Place.Reaches.preorderly.trans hreach hstart) hvisible hread hrest

theorem append (h : Chain dialect levels place operands middle)
    (hmore : Chain dialect levels middle more next) :
    Chain dialect levels place (operands ++ more) next := by
  induction h with
  | nil hreach => exact hmore.after hreach
  | cons hreach hvisible hread _ ih => exact .cons hreach hvisible hread (ih hmore)

theorem reaches (h : Chain dialect levels place operands next) : place.Reaches next := by
  have hR := Place.Reaches.preorderly
  induction h with
  | nil hreach => exact hreach
  | cons hreach _ hread _ ih => exact hR.trans hreach (hR.trans (readInstruction_spans hread).reaches ih)

/-- Every link of a chain has been read with the levels of the chain, and was not announced as hidden. -/
theorem exists_read (h : Chain dialect levels place operands next) {c : Instruction} (hc : c ∈ operands) :
    ∃ start stop, ¬start.ShowsHidden dialect ∧ readInstruction dialect levels start = .ok c stop := by
  induction h with
  | nil => cases hc
  | cons _ hvisible hread _ ih =>
      rcases List.mem_cons.1 hc with rfl | hc
      · exact ⟨_, _, hvisible, hread⟩
      · exact ih hc

/-- The links stand between the ends of their chain. -/
theorem between (h : Chain dialect levels place operands next) {c : Instruction} (hc : c ∈ operands) :
    c.Between place next := by
  induction h with
  | nil => cases hc
  | @cons place start stop next i rest hreach _ hread hrest ih =>
      have hspans := readInstruction_spans hread
      have hfront := hreach.input.offset_le
      have hback := hrest.reaches
      rcases List.mem_cons.1 hc with rfl | hc
      · rw [Instruction.Between, hspans.position, hspans.storagePosition, hspans.endPosition, hspans.storageEnd]
        exact ⟨⟨hreach.position, hfront⟩, hback.position, hback.input.offset_le⟩
      · obtain ⟨⟨hposition, hoffset⟩, hstop⟩ := ih hc
        have hmiddle := hspans.reaches
        refine ⟨⟨?_, ?_⟩, hstop⟩
        · exact Nat.le_trans hreach.position (Nat.le_trans hmiddle.position hposition)
        · exact Nat.le_trans hfront (Nat.le_trans hmiddle.input.offset_le hoffset)

/-- The links stand one behind the other. -/
theorem pairwise (h : Chain dialect levels place operands next) : operands.Pairwise Instruction.Precedes := by
  induction h with
  | nil => exact .nil
  | cons _ _ hread hrest ih =>
      apply List.Pairwise.cons _ ih
      intro d hd
      have hspans := readInstruction_spans hread
      rw [Instruction.Precedes, hspans.endPosition, hspans.storageEnd]
      exact (hrest.between hd).1

end Chain

/-- The operands of a list form a chain. Each step skips hidden instructions in front of its operand, and the last one
    leaves the terminator behind the chain. -/
theorem chain_of_collects {dialect : Dialect} {levels : Nat} {terminator : Opcode} {place next : Place}
    {operands : List Instruction} (h : Decoder.Collects (listStep dialect levels terminator) place operands next) :
    Chain dialect levels place operands next := by
  induction h with
  | stop hstep =>
      obtain ⟨last, hlast, -⟩ := listStep_none.1 hstep
      obtain ⟨start, hskips, hread⟩ := operand_eq_ok_iff.1 hlast
      exact .nil (Place.Reaches.preorderly.trans hskips.reaches (readInstruction_spans hread).reaches)
  | more hstep _ ih =>
      obtain ⟨start, hskips, hread⟩ := operand_eq_ok_iff.1 (listStep_some.1 hstep).1
      exact .cons hskips.reaches hskips.not_showsHidden hread ih

/-- The operands of a field form a chain. -/
theorem chain_of_read {dialect : Dialect} {levels : Nat} {place next : Place} {part : Filled}
    (h : part.field.read dialect (readInstruction dialect levels) place = .ok part.value next) :
    Chain dialect levels place part.operands next := by
  have hR := Place.Reaches.primitiveMoves dialect.format
  have hreach : place.Reaches next := (hR.field (reaches_readInstruction dialect levels) part.field).of_ok h
  obtain ⟨field, value⟩ := part
  cases field with
  | operand =>
      obtain ⟨start, hskips, hread⟩ := operand_eq_ok_iff.1 h
      exact .cons hskips.reaches hskips.not_showsHidden hread (.nil (hR.refl _))
  | operandsUntil terminator => exact chain_of_collects (operandsUntil_eq_ok_iff.1 h)
  | _ => exact .nil hreach

/-- The operands of fields in a row form a chain. -/
theorem Fills.chain {dialect : Dialect} {levels : Nat} {place next : Place} {parts : List Filled}
    (h : Fills dialect levels place parts next) :
    Chain dialect levels place (parts.flatMap Filled.operands) next := by
  induction h with
  | nil => exact .nil (Place.Reaches.preorderly.refl _)
  | cons hread _ ih =>
      rw [List.flatMap_cons]
      exact (chain_of_read hread).append ih

/-- The operands of an instruction form a chain behind its code. -/
theorem Instruction.Composed.chain {dialect : Dialect} {levels : Nat} {i : Instruction}
    {place afterCode next : Place} {parts : List Filled}
    (h : i.Composed dialect levels place afterCode next parts) :
    Chain dialect levels afterCode i.operands next := by
  rw [Instruction.operands, h.madeOf.operands]
  exact h.fills.chain

/-!
### Trees

Operands are read as instructions again, with one level less. So a property of every instruction that can be read is a
property of every node of a tree.
-/

/-- The node is the instruction or something nested in it, at any depth. -/
def Instruction.Contains (i node : Instruction) : Prop := ∃ depth, (depth, node) ∈ i.visit

/-- The property holds of the instruction and of everything nested in it. -/
def Instruction.Everywhere (P : Instruction → Prop) (i : Instruction) : Prop :=
  ∀ node, i.Contains node → P node

/-- The property holds at every depth of the body. -/
def Body.Everywhere (P : Instruction → Prop) (body : Body) : Prop :=
  ∀ i ∈ body.instructions, i.Everywhere P

theorem Instruction.visitFrom_eq (depth : Nat) (i : Instruction) :
    i.visitFrom depth = (depth, i) :: i.operands.flatMap (·.visitFrom (depth + 1)) := by
  rw [visitFrom]
  simp

theorem Instruction.mem_visitFrom {depth : Nat} {i : Instruction} {node : Nat × Instruction} :
    node ∈ i.visitFrom depth ↔ node = (depth, i) ∨ ∃ c ∈ i.operands, node ∈ c.visitFrom (depth + 1) := by
  rw [visitFrom_eq, List.mem_cons, List.mem_flatMap]

/-- Which nodes are visited does not depend on the depth that counting starts from. -/
theorem Instruction.exists_mem_visitFrom {i node : Instruction} {depth : Nat} (depth' : Nat)
    (h : ∃ level, (level, node) ∈ i.visitFrom depth) : ∃ level, (level, node) ∈ i.visitFrom depth' := by
  induction i using inductionOnOperands generalizing depth depth' with
  | step i ih =>
    obtain ⟨level, hnode⟩ := h
    rcases mem_visitFrom.1 hnode with heq | ⟨c, hc, hnode⟩
    · obtain ⟨-, rfl⟩ := Prod.mk.inj heq
      exact ⟨depth', mem_visitFrom.2 (.inl rfl)⟩
    · obtain ⟨level', hnode'⟩ := ih c hc (depth' + 1) ⟨level, hnode⟩
      exact ⟨level', mem_visitFrom.2 (.inr ⟨c, hc, hnode'⟩)⟩

/-- A tree is its root and the trees of the operands. -/
theorem Instruction.contains_iff {i node : Instruction} :
    i.Contains node ↔ node = i ∨ ∃ c ∈ i.operands, c.Contains node := by
  constructor
  · rintro ⟨level, hnode⟩
    rcases mem_visitFrom.1 hnode with heq | ⟨c, hc, hnode⟩
    · exact .inl (Prod.mk.inj heq).2
    · exact .inr ⟨c, hc, exists_mem_visitFrom 0 ⟨level, hnode⟩⟩
  · rintro (rfl | ⟨c, hc, hnode⟩)
    · exact ⟨0, mem_visitFrom.2 (.inl rfl)⟩
    · obtain ⟨level, hnode⟩ := exists_mem_visitFrom 1 hnode
      exact ⟨level, mem_visitFrom.2 (.inr ⟨c, hc, hnode⟩)⟩

/-- A property holds everywhere in a tree if it holds of its root and everywhere in the operands. -/
theorem Instruction.everywhere_iff {P : Instruction → Prop} {i : Instruction} :
    i.Everywhere P ↔ P i ∧ ∀ c ∈ i.operands, c.Everywhere P := by
  constructor
  · intro h
    constructor
    · exact h i (contains_iff.2 (.inl rfl))
    · exact fun c hc node hnode => h node (contains_iff.2 (.inr ⟨c, hc, hnode⟩))
  · rintro ⟨hroot, hoperands⟩ node hnode
    rcases contains_iff.1 hnode with rfl | ⟨c, hc, hnode⟩
    · exact hroot
    · exact hoperands c hc node hnode

/-- What holds of every instruction that is read, whatever its place and its levels, holds everywhere in it. -/
theorem readInstruction_everywhere {dialect : Dialect} {P : Instruction → Prop}
    (hP : ∀ {levels place next i}, readInstruction dialect levels place = .ok i next → P i) (levels : Nat) :
    ∀ {place next : Place} {i : Instruction}, readInstruction dialect levels place = .ok i next → i.Everywhere P := by
  induction levels with
  | zero => exact fun h => nomatch h
  | succ levels ih =>
      intro place next i h
      obtain ⟨fewer, afterCode, parts, hlevels, hcomposed⟩ := readInstruction_composed h
      cases hlevels
      refine Instruction.everywhere_iff.2 ⟨hP h, fun c hc => ?_⟩
      obtain ⟨start, stop, -, hread⟩ := hcomposed.chain.exists_read hc
      exact ih hread

/-- What holds of every instruction that is read holds at every depth of a decoded body. -/
theorem decode_everywhere {dialect : Dialect} {P : Instruction → Prop}
    (hP : ∀ {levels place next i}, readInstruction dialect levels place = .ok i next → P i) (source : Source) :
    (source.decode dialect).Everywhere P := by
  intro i hi
  obtain ⟨start, stop, hread⟩ := exists_readInstruction_of_mem_decode hi
  exact readInstruction_everywhere hP maxNesting hread

/-!
### Nesting
-/

/-- The operands of an instruction stand one behind the other, and all of them behind the start of the instruction and
    before its end, in both address spaces. -/
structure Instruction.Nests (i : Instruction) : Prop where
  /-- Each operand ends where the next one starts, or before it. -/
  ordered : i.operands.Pairwise Instruction.Precedes
  /-- Operands start strictly behind the start of the instruction. -/
  starts : ∀ c ∈ i.operands, i.position < c.position ∧ i.storagePosition < c.storagePosition
  /-- Operands end within the instruction. -/
  ends : ∀ c ∈ i.operands, c.endPosition ≤ i.endPosition ∧ c.storageEnd ≤ i.storageEnd

/-- What an instruction contains stands within it, in both address spaces. -/
theorem Instruction.Contains.within {i node : Instruction} (hnode : i.Contains node)
    (hnests : i.Everywhere Instruction.Nests) :
    (i.position ≤ node.position ∧ i.storagePosition ≤ node.storagePosition) ∧
      (node.endPosition ≤ i.endPosition ∧ node.storageEnd ≤ i.storageEnd) := by
  induction i using inductionOnOperands with
  | step i ih =>
    obtain ⟨hroot, hoperands⟩ := Instruction.everywhere_iff.1 hnests
    rcases Instruction.contains_iff.1 hnode with rfl | ⟨c, hc, hnode⟩
    · exact ⟨⟨Nat.le_refl _, Nat.le_refl _⟩, Nat.le_refl _, Nat.le_refl _⟩
    · obtain ⟨⟨hposition, hoffset⟩, hend, hstorage⟩ := ih c hc hnode (hoperands c hc)
      obtain ⟨hfirst, hfirstStorage⟩ := hroot.starts c hc
      obtain ⟨hlast, hlastStorage⟩ := hroot.ends c hc
      exact ⟨⟨Nat.le_trans (Nat.le_of_lt hfirst) hposition, Nat.le_trans (Nat.le_of_lt hfirstStorage) hoffset⟩,
        Nat.le_trans hend hlast, Nat.le_trans hstorage hlastStorage⟩

/-- The code of an instruction stands in front of its operands. -/
theorem readInstruction_nests {dialect : Dialect} {levels : Nat} {place next : Place} {i : Instruction}
    (h : readInstruction dialect levels place = .ok i next) : i.Nests := by
  have hspans := readInstruction_spans h
  obtain ⟨fewer, afterCode, parts, -, hcomposed⟩ := readInstruction_composed h
  obtain ⟨hposition, hoffset⟩ := Decoder.code_ok hcomposed.code
  have hchain := hcomposed.chain
  constructor
  · exact hchain.pairwise
  · intro c hc
    obtain ⟨⟨hstart, hstorage⟩, -⟩ := hchain.between hc
    rw [hspans.position, hspans.storagePosition]
    exact ⟨Nat.lt_of_lt_of_le hposition hstart, Nat.lt_of_lt_of_le hoffset hstorage⟩
  · intro c hc
    rw [hspans.endPosition, hspans.storageEnd]
    exact (hchain.between hc).2

/-- At every depth of every decoded body operands stay inside their instruction, in order and without overlap. -/
theorem decode_nests (source : Source) (dialect : Dialect) :
    (source.decode dialect).Everywhere Instruction.Nests :=
  decode_everywhere readInstruction_nests source

end ScriptBytecode
