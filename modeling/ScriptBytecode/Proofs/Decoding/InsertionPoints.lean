/-
Module: ScriptBytecode.Proofs.Decoding.InsertionPoints
Purpose: Where hidden instructions may be inserted into an encoded instruction: in front of every nested operand, at any
  depth, and in front of what ends a list of operands. These points are read off the tree; here they are tied to the
  places at which the parts of the tree have been read, so that points of different parts are known to be apart.
Main exports: Instruction.Offers, Instruction.Admits, readInstruction_admits, Instruction.Takes, Chain.takes,
  Filled.Closes, Instruction.Composed.takes_or_closes
-/
import ScriptBytecode.Proofs.Decoding.Conformance

namespace ScriptBytecode

variable {α : Type}

/-!
### Where padding may stand
-/

/-- The node has a place for hidden instructions in front of the byte at `offset`: one of its operands starts there, or
    the byte ends its list of operands. -/
def Instruction.Offers (node : Instruction) (offset : Nat) : Prop :=
  (∃ c ∈ node.operands, offset = c.storagePosition) ∨
    (node.token.list?.isSome = true ∧ offset + 1 = node.storageEnd)

/-- The instruction, or something nested in it, has a place for hidden instructions in front of the byte. -/
def Instruction.Admits (i : Instruction) (offset : Nat) : Prop :=
  ∃ node, i.Contains node ∧ node.Offers offset

theorem Instruction.admits_iff {i : Instruction} {offset : Nat} :
    i.Admits offset ↔ i.Offers offset ∨ ∃ c ∈ i.operands, c.Admits offset := by
  constructor
  · rintro ⟨node, hnode, hoffers⟩
    rcases contains_iff.1 hnode with rfl | ⟨c, hc, hnode⟩
    · exact .inl hoffers
    · exact .inr ⟨c, hc, node, hnode, hoffers⟩
  · rintro (hoffers | ⟨c, hc, node, hnode, hoffers⟩)
    · exact ⟨i, contains_iff.2 (.inl rfl), hoffers⟩
    · exact ⟨node, contains_iff.2 (.inr ⟨c, hc, hnode⟩), hoffers⟩

section Points

variable {dialect : Dialect} {levels : Nat} {place next : Place}

/-- A list takes at least its terminator. -/
theorem offset_lt_of_collects {terminator : Opcode} {operands : List Instruction}
    (h : Decoder.Collects (listStep dialect levels terminator) place operands next) :
    place.input.offset < next.input.offset := by
  have hoperand : ∀ {place next i}, Decoder.operand dialect (readInstruction dialect levels) place = .ok i next →
      place.input.offset < next.input.offset := by
    intro place next i hi
    obtain ⟨start, hskips, hread⟩ := operand_eq_ok_iff.1 hi
    exact Nat.lt_of_le_of_lt hskips.reaches.input.offset_le (readInstruction_offset_lt hread)
  induction h with
  | stop hstep =>
      obtain ⟨last, hlast, -⟩ := listStep_none.1 hstep
      exact hoperand hlast
  | more hstep _ ih => exact Nat.lt_trans (hoperand (listStep_some.1 hstep).1) ih

/-- Fields of which the last one is a list take at least one byte. -/
theorem Fills.offset_lt {parts : List Filled} (h : Fills dialect levels place parts next)
    (hlist : (parts.getLast?.bind Filled.list?).isSome = true) : place.input.offset < next.input.offset := by
  have hR := Place.Reaches.primitiveMoves dialect.format
  induction h with
  | nil => cases hlist
  | @cons place middle next part parts hread hrest ih =>
      have hfront := ((hR.field (reaches_readInstruction dialect levels) _).of_ok hread).input.offset_le
      cases parts with
      | nil =>
          obtain ⟨field, value⟩ := part
          cases hrest
          cases field with
          | operandsUntil terminator => exact offset_lt_of_collects (operandsUntil_eq_ok_iff.1 hread)
          | _ => cases hlist
      | cons second parts =>
          rw [List.getLast?_cons_cons] at hlist
          exact Nat.lt_of_le_of_lt hfront (ih hlist)

/-- The places that a node has lie behind its start and before its end. -/
theorem readInstruction_offers {i : Instruction} (h : readInstruction dialect levels place = .ok i next)
    {offset : Nat} (hoffers : i.Offers offset) : i.storagePosition < offset ∧ offset < i.storageEnd := by
  have hnests := readInstruction_nests h
  have hspans := readInstruction_spans h
  obtain ⟨fewer, afterCode, parts, -, hcomposed⟩ := readInstruction_composed h
  rcases hoffers with ⟨c, hc, rfl⟩ | ⟨hlist, hend⟩
  · obtain ⟨start, stop, -, hread⟩ := hcomposed.chain.exists_read hc
    have hsize := (readInstruction_spans hread).storageSize_pos
    have hlast := (hnests.ends c hc).2
    have hc : c.storagePosition < c.storageEnd := Nat.lt_add_of_pos_right hsize
    exact ⟨(hnests.starts c ‹_›).2, Nat.lt_of_lt_of_le hc hlast⟩
  · rw [hcomposed.madeOf.list] at hlist
    have hcode := (Decoder.code_ok hcomposed.code).2
    have hfields := hcomposed.fills.offset_lt hlist
    rw [hspans.storageEnd] at hend ⊢
    rw [hspans.storagePosition]
    omega

/-- Padding that an instruction admits stands behind its start and before its end. -/
theorem readInstruction_admits {i : Instruction} (h : readInstruction dialect levels place = .ok i next)
    {offset : Nat} (hadmits : i.Admits offset) : i.storagePosition < offset ∧ offset < i.storageEnd := by
  obtain ⟨node, hnode, hoffers⟩ := hadmits
  obtain ⟨⟨-, hstart⟩, -, hend⟩ := hnode.within (readInstruction_everywhere readInstruction_nests levels h)
  have heverywhere := readInstruction_everywhere
    (P := fun node => ∀ offset, node.Offers offset → node.storagePosition < offset ∧ offset < node.storageEnd)
    (fun h _ => readInstruction_offers h) levels h
  obtain ⟨hfirst, hlast⟩ := heverywhere node hnode offset hoffers
  exact ⟨Nat.lt_of_le_of_lt hstart hfirst, Nat.lt_of_lt_of_le hlast hend⟩

end Points

theorem Token.endsList_of_list? {token : Token α} {terminator : Opcode} {operands : List α}
    (h : token.list? = some (terminator, operands)) : terminator.endsList = true := by
  unfold Token.list? at h
  split at h <;> cases h <;> rfl

/-- What ends a list takes one byte. -/
theorem offset_of_endsList {dialect : Dialect} {levels : Nat} {place next : Place} {i : Instruction}
    (h : readInstruction dialect levels place = .ok i next) (hends : i.opcode.endsList = true) :
    next.input.offset = place.input.offset + 1 := by
  rw [Opcode.endsList_iff] at hends
  obtain ⟨fewer, afterCode, parts, -, hcomposed⟩ := readInstruction_composed h
  have hneeds : Code.needsExtension i.code.first = false := by
    apply needsExtension_eq_false hcomposed.kind
    · rcases hends with hends | hends <;> rw [hends] <;> rfl
    · intro byte hunknown
      rcases hends with hends | hends <;> rw [hends] at hunknown <;> cases hunknown
  have hyields := hcomposed.yields
  have hfills := hcomposed.fills
  have hcode := hcomposed.code
  obtain ⟨position, offset, rest⟩ := place
  obtain ⟨left, rfl⟩ : ∃ left, rest = i.code.first :: left := by
    have hhead := Decoder.code_head? hcode
    exact List.head?_eq_some_iff.1 hhead
  rw [Decoder.code_of_plain hneeds] at hcode
  obtain ⟨-, rfl⟩ := EStateM.Result.ok.inj hcode
  generalize i.token = token at hyields
  rcases hends with hends | hends <;> rw [hends] at hyields <;> cases hyields <;> cases hfills <;> rfl

/-- Padding in front of the byte is padding in front of the instruction, or padding that it admits. -/
def Instruction.Takes (i : Instruction) (offset : Nat) : Prop := offset = i.storagePosition ∨ i.Admits offset

/-- Padding that a link of a chain takes stands between the ends of the chain. -/
theorem Chain.takes {dialect : Dialect} {levels : Nat} {place next : Place} {operands : List Instruction}
    (h : Chain dialect levels place operands next) {c : Instruction} (hc : c ∈ operands) {offset : Nat}
    (htakes : c.Takes offset) : place.input.offset ≤ offset ∧ offset < next.input.offset := by
  obtain ⟨⟨-, hstart⟩, -, hend⟩ := h.between hc
  obtain ⟨start, stop, -, hread⟩ := h.exists_read hc
  have hsize : c.storagePosition < c.storageEnd := Nat.lt_add_of_pos_right (readInstruction_spans hread).storageSize_pos
  rcases htakes with rfl | hadmits
  · exact ⟨hstart, Nat.lt_of_lt_of_le hsize hend⟩
  · obtain ⟨hfirst, hlast⟩ := readInstruction_admits hread hadmits
    exact ⟨Nat.le_trans hstart (Nat.le_of_lt hfirst), Nat.lt_of_lt_of_le hlast hend⟩

/-- The byte ends the list that the field holds, and the field. -/
def Filled.Closes (part : Filled) (stop offset : Nat) : Prop :=
  ∃ terminator operands, part.list? = some (terminator, operands) ∧ terminator.endsList = true ∧ offset + 1 = stop

/-- Padding that an instruction admits is that of an operand, or of what ends a list in its last field. -/
theorem Instruction.Composed.takes_or_closes {dialect : Dialect} {levels : Nat} {i : Instruction}
    {place afterCode next : Place} {parts : List Filled} (h : i.Composed dialect levels place afterCode next parts)
    (hend : i.storageEnd = next.input.offset) {offset : Nat} (hadmits : i.Admits offset) :
    (∃ c ∈ parts.flatMap Filled.operands, c.Takes offset) ∨
      ∃ part, parts.getLast? = some part ∧ part.Closes next.input.offset offset := by
  have hoperands : i.operands = parts.flatMap Filled.operands := h.madeOf.operands
  rcases Instruction.admits_iff.1 hadmits with (⟨c, hc, hstart⟩ | ⟨hlist, hoffset⟩) | ⟨c, hc, hinside⟩
  · exact .inl ⟨c, hoperands ▸ hc, .inl hstart⟩
  · obtain ⟨⟨terminator, operands⟩, htoken⟩ := Option.isSome_iff_exists.1 hlist
    have hends := Token.endsList_of_list? htoken
    rw [h.madeOf.list] at htoken
    obtain ⟨part, hlast, hpart⟩ := Option.bind_eq_some_iff.1 htoken
    exact .inr ⟨part, hlast, terminator, operands, hpart, hends, hend ▸ hoffset⟩
  · exact .inl ⟨c, hoperands ▸ hc, .inr hinside⟩

/-- Such padding stands behind the code. -/
theorem Instruction.Composed.le_of_admits {dialect : Dialect} {levels : Nat} {i : Instruction}
    {place afterCode next : Place} {parts : List Filled} (h : i.Composed dialect levels place afterCode next parts)
    (hend : i.storageEnd = next.input.offset) {offset : Nat} (hadmits : i.Admits offset) :
    afterCode.input.offset ≤ offset := by
  rcases h.takes_or_closes hend hadmits with ⟨c, hc, htakes⟩ | ⟨part, hlast, terminator, operands, hlist, -, hoffset⟩
  · exact (h.fills.chain.takes hc htakes).1
  · have := h.fills.offset_lt (by rw [hlast, Option.bind_some, hlist]; rfl)
    omega

end ScriptBytecode
