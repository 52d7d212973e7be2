/-
Module: ScriptBytecode.Proofs.Decoding.Lookup
Purpose: Finding instructions by position, and reading on from there. The instructions of a decoded body stand end to
  end, so both their positions and their ends increase; this is what the binary searches rely on. Main statement: in
  every decoded body they find what a scan over all instructions finds, and a tape gives the instructions that are
  shown from where it stands to the end, each once.
Main exports: Body.indexOf?_eq_some_iff, Body.endingAt?_eq_some_iff, Tape.rest, Tape.reading, Tape.reading_eq,
  Body.Navigable, decode_navigable
-/
import ScriptBytecode.Proofs.Decoding.Locality
import ScriptBytecode.Proofs.Decoding.Partition

namespace ScriptBytecode

/-!
### Searches
-/

namespace Body

variable {body : Body} {start stop : Nat}

theorem indexOf?_eq_some_iff (h : Consecutive start body.instructions.toList stop) {p index : Nat} :
    body.indexOf? p = some index ↔ ∃ i, body.instructions[index]? = some i ∧ i.position = p := by
  constructor
  · intro hindex
    obtain ⟨i, hi, hposition⟩ := position_of_indexOf? hindex
    exact ⟨i, by rwa [Array.getElem?_toList] at hi, hposition⟩
  · rintro ⟨i, hi, rfl⟩
    exact indexOf?_of_getElem? h hi

theorem at?_eq_some_iff (h : Consecutive start body.instructions.toList stop) {p : Nat} {i : Instruction} :
    body.at? p = some i ↔ i ∈ body.instructions ∧ i.position = p := by
  rw [at?, Option.bind_eq_some_iff]
  constructor
  · rintro ⟨index, hindex, hi⟩
    obtain ⟨j, hj, hposition⟩ := (indexOf?_eq_some_iff h).1 hindex
    cases hi.symm.trans hj
    exact ⟨Array.mem_of_getElem? hi, hposition⟩
  · rintro ⟨hi, hposition⟩
    obtain ⟨index, hindex⟩ := Array.mem_iff_getElem?.1 hi
    exact ⟨index, (indexOf?_eq_some_iff h).2 ⟨i, hindex, hposition⟩, hindex⟩

theorem endingAt?_eq_some_iff (h : Consecutive start body.instructions.toList stop) {p : Nat} {i : Instruction} :
    body.endingAt? p = some i ↔ i ∈ body.instructions ∧ i.endPosition = p := by
  constructor
  · intro hfound
    rw [endingAt?] at hfound
    obtain ⟨hi, hend⟩ := Option.filter_eq_some_iff.1 hfound
    exact ⟨Array.mem_of_getElem? hi, by simpa using hend⟩
  · rintro ⟨hi, rfl⟩
    exact endingAt?_of_mem h (Array.mem_toList_iff.2 hi)

/-- A search that finds what satisfies a condition, of which there is one at most, is a scan. -/
theorem eq_find?_of_iff {is : Array Instruction} {p : Instruction → Bool} {found : Option Instruction}
    (h : ∀ i, found = some i ↔ i ∈ is ∧ p i = true) : found = is.find? p := by
  cases hscan : is.find? p with
  | none =>
      rw [Option.eq_none_iff_forall_ne_some]
      intro i hi
      obtain ⟨hmem, hp⟩ := (h i).1 hi
      exact Array.find?_eq_none.1 hscan i hmem hp
  | some i => exact (h i).2 ⟨Array.mem_of_find?_eq_some hscan, Array.find?_some hscan⟩

theorem indexOf?_eq_findIdx? (h : Consecutive start body.instructions.toList stop) (p : Nat) :
    body.indexOf? p = body.instructions.findIdx? (·.position == p) := by
  cases hscan : body.instructions.findIdx? (·.position == p) with
  | none =>
      rw [Option.eq_none_iff_forall_ne_some]
      intro index hindex
      obtain ⟨i, hi, hposition⟩ := (indexOf?_eq_some_iff h).1 hindex
      have hother := Array.findIdx?_eq_none_iff.1 hscan i (Array.mem_of_getElem? hi)
      simp [hposition] at hother
  | some index =>
      obtain ⟨hindex, hposition, -⟩ := Array.findIdx?_eq_some_iff_getElem.1 hscan
      exact (indexOf?_eq_some_iff h).2 ⟨_, Array.getElem?_eq_getElem hindex, by simpa using hposition⟩

theorem at?_eq_find? (h : Consecutive start body.instructions.toList stop) (p : Nat) :
    body.at? p = body.instructions.find? (·.position == p) := by
  apply eq_find?_of_iff
  intro i
  rw [at?_eq_some_iff h, beq_iff_eq]

theorem endingAt?_eq_find? (h : Consecutive start body.instructions.toList stop) (p : Nat) :
    body.endingAt? p = body.instructions.find? (·.endPosition == p) := by
  apply eq_find?_of_iff
  intro i
  rw [endingAt?_eq_some_iff h, beq_iff_eq]

/-- Instructions with increasing keys have no key twice. -/
theorem index_unique {key : Instruction → Nat} (h : body.instructions.toList.Pairwise fun i j => key i < key j)
    {k l : Nat} {i j : Instruction} (hi : body.instructions[k]? = some i) (hj : body.instructions[l]? = some j)
    (hsame : key i = key j) : k = l := by
  rw [← partitionPoint_of_increasing key h hi, ← partitionPoint_of_increasing key h hj, hsame]

/-- Skipping hidden instructions passes no other. -/
theorem filter_drop_skipHidden (body : Body) (index : Nat) :
    (body.instructions.toList.drop (body.skipHidden index)).filter (·.isShown) =
      (body.instructions.toList.drop index).filter (·.isShown) := by
  fun_induction skipHidden body index with
  | case1 index hlt hhidden ih =>
      have hdrop := List.drop_eq_getElem_cons (l := body.instructions.toList) (i := index) (by simpa using hlt)
      rw [ih, hdrop, List.filter_cons_of_neg]
      simpa [Instruction.isShown] using hhidden
  | case2 => rfl
  | case3 => rfl

end Body

/-!
### Reading
-/

namespace Tape

/-- The instructions that are still to be read. -/
def rest (tape : Tape) : List Instruction := (tape.body.instructions.toList.drop tape.next).filter (·.isShown)

/-- What the last of `n + 1` readings gives. -/
def reading (tape : Tape) : (n : Nat) → Option Instruction
  | 0 => tape.advance.1
  | n + 1 => tape.advance.2.reading n

/-- A reading gives the first of the instructions that are still to be read, and leaves the others. -/
theorem advance_rest (tape : Tape) :
    tape.advance.1 = tape.rest.head? ∧ tape.advance.2.rest = tape.rest.tail := by
  have hskip := tape.body.filter_drop_skipHidden tape.next
  have hshown := (tape.body.skipHidden_spec tape.next).2.2
  unfold advance rest
  dsimp only
  rw [← hskip]
  cases hi : tape.body.instructions[tape.body.skipHidden tape.next]? with
  | none =>
      have hdrop : tape.body.instructions.toList.drop (tape.body.skipHidden tape.next) = [] := by
        rw [List.drop_eq_nil_iff]
        simpa using hi
      simp [hdrop]
  | some i =>
      rw [← Array.getElem?_toList] at hi
      obtain ⟨hlt, hget⟩ := List.getElem?_eq_some_iff.1 hi
      rw [List.drop_eq_getElem_cons hlt, hget, List.filter_cons_of_pos (hshown i hi)]
      exact ⟨rfl, rfl⟩

theorem seek_of_indexOf? (tape : Tape) {p index : Nat} (h : tape.body.indexOf? p = some index) :
    tape.seek p = (tape.body.instructions[index]?, { tape with next := index }) := by
  rw [seek, h]

theorem seek_of_none (tape : Tape) {p : Nat} (h : tape.body.indexOf? p = none) : tape.seek p = (none, tape) := by
  rw [seek, h]

/-- Successive readings give the instructions that are still to be read, one after the other, and then nothing. -/
theorem reading_eq (tape : Tape) (n : Nat) : tape.reading n = tape.rest[n]? := by
  induction n generalizing tape with
  | zero =>
      rw [reading, tape.advance_rest.1, List.head?_eq_getElem?]
  | succ n ih =>
      rw [reading, ih, tape.advance_rest.2, List.getElem?_tail]

end Tape

/-- Instructions of a body are found by their positions, and read on from there. -/
structure Body.Navigable (body : Body) : Prop where
  /-- No two instructions start at one position. -/
  startsOnce : ∀ (k l : Nat) (i j : Instruction), body.instructions[k]? = some i → body.instructions[l]? = some j →
    i.position = j.position → k = l
  /-- No two instructions end at one position. -/
  endsOnce : ∀ (k l : Nat) (i j : Instruction), body.instructions[k]? = some i → body.instructions[l]? = some j →
    i.endPosition = j.endPosition → k = l
  /-- The searches by position find what a scan finds. -/
  indexOf : ∀ p, body.indexOf? p = body.instructions.findIdx? (·.position == p)
  startingAt : ∀ p, body.at? p = body.instructions.find? (·.position == p)
  /-- So does the search by end. -/
  endingAt : ∀ p, body.endingAt? p = body.instructions.find? (·.endPosition == p)
  /-- A tape that is moved to where an instruction starts gives this instruction, and from then on those that are not
      hidden, in their order, and then nothing for ever. -/
  seek : ∀ next p index i, body.instructions[index]? = some i → i.position = p →
    ((⟨body, next⟩ : Tape).seek p).1 = some i ∧
      ∀ n, ((⟨body, next⟩ : Tape).seek p).2.reading n =
        ((body.instructions.toList.drop index).filter fun j => !j.opcode.isHidden)[n]?
  /-- Where no instruction starts the tape does not move. -/
  missing : ∀ next p, (∀ i ∈ body.instructions, i.position ≠ p) →
    (⟨body, next⟩ : Tape).seek p = (none, ⟨body, next⟩)
  /-- From the start, a tape gives all instructions that are not hidden. -/
  rewind : ∀ next n, (⟨body, next⟩ : Tape).rewind.reading n =
    (body.instructions.toList.filter fun j => !j.opcode.isHidden)[n]?

/-- Instructions that stand end to end have increasing positions and increasing ends, which is all that the searches
    need. -/
theorem Consecutive.navigable {body : Body} {start stop : Nat} (h : Consecutive start body.instructions.toList stop) :
    body.Navigable := by
  constructor
  · exact fun k l i j hi hj => Body.index_unique h.pairwise_position hi hj
  · exact fun k l i j hi hj => Body.index_unique h.pairwise_endPosition hi hj
  · exact Body.indexOf?_eq_findIdx? h
  · exact Body.at?_eq_find? h
  · exact Body.endingAt?_eq_find? h
  · intro next p index i hi hposition
    have hindex := (Body.indexOf?_eq_some_iff h).2 ⟨i, hi, hposition⟩
    rw [Tape.seek_of_indexOf? ⟨body, next⟩ hindex]
    exact ⟨hi, Tape.reading_eq ⟨body, index⟩⟩
  · intro next p hother
    apply Tape.seek_of_none ⟨body, next⟩
    rw [Body.indexOf?_eq_findIdx? h, Array.findIdx?_eq_none_iff]
    simpa using hother
  · exact fun next => Tape.reading_eq ⟨body, 0⟩

/-- Lookups by position in a decoded body agree with a scan, and its tape is read from where it was moved to. -/
theorem decode_navigable (source : Source) (dialect : Dialect) : (source.decode dialect).Navigable :=
  Consecutive.navigable (Body.isTiled_decode source dialect)

/-- A hidden instruction, a constant and the end. -/
def debugFirst : Source where
  declaration := "debugFirst"
  bytes := [0x41, 0x64, 0x00, 0x00, 0x00, 0x01, 0x00, 0x00, 0x00, 0x02, 0x00, 0x00, 0x00, 0x00] ++ [0x26, 0x53]
  declaredSize := 16

theorem decode_navigable_debugFirst :
    let body := debugFirst.decode delegateDialect
    (∀ n, (((⟨body, 2⟩ : Tape).seek 0).2.reading n).map (·.position) = [14, 15][n]?) ∧
      (⟨body, 2⟩ : Tape).seek 1 = (none, ⟨body, 2⟩) := by
  intro body
  have hnavigable := decode_navigable debugFirst delegateDialect
  have hpositions : body.instructions.toList.map (·.position) = [0, 14, 15] := by decide +kernel
  have hshown : ((body.instructions.toList.drop 0).filter fun i => !i.opcode.isHidden).map (·.position) = [14, 15] := by
    decide +kernel
  constructor
  · intro n
    have hfirst : (body.instructions[0]?).map (·.position) = some 0 := by
      rw [← Array.getElem?_toList, ← List.getElem?_map, hpositions]
      rfl
    obtain ⟨i, hi, hposition⟩ := Option.map_eq_some_iff.1 hfirst
    rw [(hnavigable.seek 2 0 0 i hi hposition).2 n, ← List.getElem?_map, hshown]
  · apply hnavigable.missing
    intro i hi hposition
    have hmem := List.mem_map_of_mem (f := Instruction.position) (Array.mem_toList_iff.2 hi)
    rw [hpositions, hposition] at hmem
    revert hmem
    decide

end ScriptBytecode
