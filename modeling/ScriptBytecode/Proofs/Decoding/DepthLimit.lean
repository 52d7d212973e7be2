/-
Module: ScriptBytecode.Proofs.Decoding.DepthLimit
Purpose: The nesting limit cuts and does not change anything else. A machine without a limit goes as deep as the bytes
  lead it, and its log tells at what depth each instruction starts. Where none starts at the limit or deeper, the
  machine with the limit does the same; where one does, that machine gets as far as the first of them and fails there.
Main exports: Execution.firstBeyond, Machine.Cut, Machine.cut_read, readInstruction_depth, nesting_limit
-/
import ScriptBytecode.Proofs.Decoding.AddressSpaces
import ScriptBytecode.Proofs.Decoding.Machine

namespace ScriptBytecode

variable {α β : Type}

/-- Where an instruction starts that is at the limit or deeper, if that is what happens. -/
def Moment.beyond? (limit : Nat) : Moment → Option Place
  | .enters depth place => if limit ≤ depth then some place else none
  | .reads _ _ | .measures _ _ => none

/-- Where the first instruction starts that is at the limit or deeper. -/
def Execution.firstBeyond (limit : Nat) (run : Execution α) : Option Place :=
  run.log.findSome? (Moment.beyond? limit)

namespace Machine

/-- The first machine does what the second one does if no instruction of the second one starts at the limit or deeper,
    and fails where the first such instruction starts otherwise. -/
structure Cut (limit : Nat) (m m' : Machine α) : Prop where
  same : ∀ registers, (m' registers).firstBeyond limit = none → m registers = m' registers
  fails : ∀ registers start, (m' registers).firstBeyond limit = some start →
    ∃ next, (m registers).result = .error (.nestingTooDeep start.input.offset) next

section Sequences

variable {limit : Nat} {m : Machine α} {rest : α → Machine β} {registers next : Registers}

theorem firstBeyond_of_ok {value : α} (h : (m registers).result = .ok value next) :
    ((m >>= rest) registers).firstBeyond limit =
      ((m registers).firstBeyond limit).or ((rest value next).firstBeyond limit) := by
  rw [bind_of_ok h]
  exact List.findSome?_append

theorem firstBeyond_of_error {e : DecodeError} (h : (m registers).result = .error e next) :
    ((m >>= rest) registers).firstBeyond limit = (m registers).firstBeyond limit := by
  rw [bind_of_error h]
  rfl

theorem firstBeyond_measured : (measured m registers).firstBeyond limit = (m registers).firstBeyond limit := by
  unfold measured
  cases (m registers).result with
  | ok value next => exact List.findSome?_append.trans Option.or_none
  | error e next => rfl

end Sequences

namespace Cut

variable {limit : Nat}

/-- A machine that starts no instruction. -/
theorem of_none {m : Machine α} (h : ∀ registers, (m registers).firstBeyond limit = none) : Cut limit m m where
  same _ _ := rfl
  fails registers start hstart := by
    rw [h registers] at hstart
    cases hstart

/-- The first instruction beyond the limit is in the first part of a sequence, or in the second part behind a first part
    that is the same with the limit. -/
theorem bind {m m' : Machine α} {rest rest' : α → Machine β} (hm : Cut limit m m')
    (hrest : ∀ value, Cut limit (rest value) (rest' value)) : Cut limit (m >>= rest) (m' >>= rest') := by
  constructor
  · intro registers hnone
    cases hresult : (m' registers).result with
    | ok value next =>
        rw [firstBeyond_of_ok hresult, Option.or_eq_none_iff] at hnone
        obtain ⟨hfirst, hsecond⟩ := hnone
        have hsame := hm.same registers hfirst
        rw [bind_of_ok hresult, bind_of_ok (hsame ▸ hresult), hsame, (hrest value).same next hsecond]
    | error e next =>
        rw [firstBeyond_of_error hresult] at hnone
        have hsame := hm.same registers hnone
        rw [bind_of_error hresult, bind_of_error (hsame ▸ hresult), hsame]
  · intro registers start hstart
    cases hfirst : (m' registers).firstBeyond limit with
    | some first =>
        -- The first part fails there, so the second part is not run.
        have hstart' : first = start := by
          cases hresult : (m' registers).result with
          | ok value next =>
              rw [firstBeyond_of_ok hresult, hfirst] at hstart
              exact Option.some.inj hstart
          | error e next =>
              rw [firstBeyond_of_error hresult, hfirst] at hstart
              exact Option.some.inj hstart
        obtain ⟨stop, hfails⟩ := hm.fails registers first hfirst
        exact ⟨stop, by rw [bind_of_error hfails, hstart']⟩
    | none =>
        have hsame := hm.same registers hfirst
        cases hresult : (m' registers).result with
        | ok value next =>
            rw [firstBeyond_of_ok hresult, hfirst, Option.none_or] at hstart
            rw [bind_of_ok (hsame ▸ hresult)]
            exact (hrest value).fails next start hstart
        | error e next =>
            rw [firstBeyond_of_error hresult, hfirst] at hstart
            cases hstart

/-- The check of the limit is what makes the difference. -/
theorem enter : Cut limit (enter (some limit)) (enter none) := by
  have hbeyond : ∀ registers : Registers, (Machine.enter none registers).firstBeyond limit =
      if limit ≤ registers.depth then some registers.place else none := by
    intro registers
    unfold Execution.firstBeyond Machine.enter
    rw [List.findSome?_singleton]
    rfl
  constructor
  · intro registers hnone
    rw [hbeyond] at hnone
    have hfree : (some limit).any (· ≤ registers.depth) = false :=
      decide_eq_false fun hreached => by simp [hreached] at hnone
    unfold Machine.enter
    rw [hfree]
    rfl
  · intro registers start hstart
    rw [hbeyond] at hstart
    split at hstart
    · rename_i hreached
      cases hstart
      exact ⟨registers, if_pos (decide_eq_true hreached)⟩
    · cases hstart

theorem deeper {m m' : Machine α} (h : Cut limit m m') : Cut limit (deeper m) (deeper m') := by
  constructor
  · intro registers hnone
    unfold Machine.deeper
    rw [h.same ⟨registers.place, registers.depth + 1⟩ hnone]
  · intro registers start hstart
    obtain ⟨next, hfails⟩ := h.fails ⟨registers.place, registers.depth + 1⟩ start hstart
    exact ⟨⟨next.place, next.depth - 1⟩, congrArg surface hfails⟩

theorem measured {m m' : Machine α} (h : Cut limit m m') : Cut limit (measured m) (measured m') := by
  constructor
  · intro registers hnone
    rw [firstBeyond_measured] at hnone
    unfold Machine.measured
    rw [h.same registers hnone]
  · intro registers start hstart
    rw [firstBeyond_measured] at hstart
    obtain ⟨next, hfails⟩ := h.fails registers start hstart
    refine ⟨next, ?_⟩
    unfold Machine.measured
    rw [hfails]

theorem respects (format : Format) (limit : Nat) : Respects format (some limit) none (Cut limit) where
  pure _ := of_none fun _ => rfl
  bind := bind
  read _ := of_none fun _ => rfl
  place := of_none fun _ => rfl
  exhausted := of_none fun _ => rfl
  enter := enter
  deeper := deeper
  measured := measured

end Cut

/-- The limit cuts the machine that has none. -/
theorem cut_read (dialect : Dialect) (limit : Nat) : Cut limit (read dialect (some limit)) (read dialect none) where
  same registers := ((Cut.respects dialect.format limit).readWithin _).same registers
  fails registers := ((Cut.respects dialect.format limit).readWithin _).fails registers

end Machine

/-- With the given levels left nothing is nested deeper than that. -/
theorem readInstruction_depth {dialect : Dialect} (levels : Nat) :
    ∀ {place next : Place} {i : Instruction} (depth : Nat), readInstruction dialect levels place = .ok i next →
      ∀ node ∈ i.visitFrom depth, node.1 < depth + levels := by
  induction levels with
  | zero =>
      intro place next i depth h
      cases h
  | succ levels ih =>
      intro place next i depth h node hnode
      obtain ⟨fewer, afterCode, parts, hlevels, hcomposed⟩ := readInstruction_composed h
      cases hlevels
      rcases Instruction.mem_visitFrom.1 hnode with rfl | ⟨c, hc, hnode⟩
      · exact Nat.lt_add_of_pos_right (Nat.succ_pos _)
      · obtain ⟨start, stop, -, hread⟩ := hcomposed.chain.exists_read hc
        have hdepth := ih (depth + 1) hread node hnode
        omega

/-- The machine without a limit reads instructions by reading those nested in them, to any depth. Where none of them
    starts at level 256 or deeper, the decoder does the same; otherwise it fails where the first of them starts. The
    machine that counts levels and stops at the limit is the decoder, and its depth is the same before an instruction
    and behind it, whether that could be read or not. No decoded tree has a node deeper than 255. -/
theorem nesting_limit (dialect : Dialect) :
    (∀ limit, Machine.read dialect limit = Machine.instruction dialect limit (Machine.read dialect limit)) ∧
    (∀ place, (Machine.read dialect none ⟨place, 0⟩).firstBeyond 256 = none →
      Machine.withDepth 0 (readInstruction dialect maxNesting place) = (Machine.read dialect none ⟨place, 0⟩).result) ∧
    (∀ place start, (Machine.read dialect none ⟨place, 0⟩).firstBeyond 256 = some start →
      ∃ next, readInstruction dialect maxNesting place = .error (.nestingTooDeep start.input.offset) next) ∧
    (∀ place depth, (Machine.read dialect (some 256) ⟨place, depth⟩).result =
      Machine.withDepth depth (readInstruction dialect (maxNesting - depth) place)) ∧
    ∀ source : Source, ∀ i ∈ (source.decode dialect).instructions, ∀ node ∈ i.visit, node.1 ≤ 255 := by
  -- The decoder is the machine with the limit, and that machine is the one without it, cut.
  have hcut := Machine.cut_read dialect maxNesting
  have hfollows := Machine.follows_read dialect maxNesting
  refine ⟨Machine.read_eq dialect, ?_, ?_, fun place depth => hfollows depth place, ?_⟩
  · intro place hnone
    rw [← hcut.same ⟨place, 0⟩ hnone]
    exact (hfollows 0 place).symm
  · intro place start hstart
    obtain ⟨next, hfails⟩ := hcut.fails ⟨place, 0⟩ start hstart
    exact ⟨next.place, Machine.withDepth_eq_error ((hfollows 0 place).symm.trans hfails)⟩
  · intro source i hi node hnode
    obtain ⟨start, stop, hread⟩ := exists_readInstruction_of_mem_decode hi
    have hdepth := readInstruction_depth maxNesting 0 hread node hnode
    unfold maxNesting at hdepth
    omega

/-- Returns whose value is a return again, as many as given, and nothing behind them. -/
def returns (count : Nat) : List UInt8 := List.replicate count 0x04

theorem nesting_limit_returns :
    ((Machine.read (stockDialect 600) none ⟨.start (returns 3 ++ [0x0B]), 0⟩).firstBeyond 256 = none ∧
      Machine.withDepth 0 (readInstruction (stockDialect 600) maxNesting (.start (returns 3 ++ [0x0B]))) =
        (Machine.read (stockDialect 600) none ⟨.start (returns 3 ++ [0x0B]), 0⟩).result) ∧
    ((Machine.read (stockDialect 600) none ⟨.start (returns 256), 0⟩).firstBeyond 256 = some ⟨256, 256, []⟩ ∧
      ∃ next, readInstruction (stockDialect 600) maxNesting (.start (returns 256)) =
        .error (.nestingTooDeep 256) next) ∧
    ∃ i ∈ (Source.decode ⟨"", returns 3 ++ [0x0B], 4⟩ (stockDialect 600)).instructions, ∃ node ∈ i.visit,
      node.1 = 3 ∧ node.1 ≤ 255 := by
  obtain ⟨-, hsame, hfails, -, hdepth⟩ := nesting_limit (stockDialect 600)
  have hfree : (Machine.read (stockDialect 600) none ⟨.start (returns 3 ++ [0x0B]), 0⟩).firstBeyond 256 = none := by
    decide +kernel
  have hbeyond : (Machine.read (stockDialect 600) none ⟨.start (returns 256), 0⟩).firstBeyond 256 =
      some ⟨256, 256, []⟩ := by
    decide +kernel
  have hdeepest : ((Source.decode ⟨"", returns 3 ++ [0x0B], 4⟩ (stockDialect 600)).instructions.toList.any fun i =>
      i.visit.any fun node => node.1 == 3) = true := by
    decide +kernel
  refine ⟨⟨hfree, hsame _ hfree⟩, ⟨hbeyond, hfails _ _ hbeyond⟩, ?_⟩
  obtain ⟨i, hi, hnodes⟩ := List.any_eq_true.1 hdeepest
  obtain ⟨node, hnode, hlevel⟩ := List.any_eq_true.1 hnodes
  have hmem := Array.mem_toList_iff.1 hi
  exact ⟨i, hmem, node, hnode, beq_iff_eq.1 hlevel, hdepth _ i hmem node hnode⟩

end ScriptBytecode
