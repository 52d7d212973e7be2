/-
Module: ScriptBytecode.Proofs.Listing.Nodes
Purpose: The nodes of a listing. A node is named by the path that leads to it, which numbers an operand at each level.
  The lines of a listing are those of the nodes, each once, in the order of their paths; and since operands stand
  behind the start of their instruction and before its end, both addresses grow from each line to the next.
Main exports: Instruction.node?, Body.node?, Instruction.rows, forestRows, mem_forestRows, Body.Listed, decode_listed
-/
import ScriptBytecode.Proofs.Decoding.AddressSpaces
import ScriptBytecode.Proofs.Decoding.Partition
import ScriptBytecode.Proofs.Listing.Lines

namespace ScriptBytecode

/-!
### Paths
-/

/-- The node that a path leads to from an instruction. -/
def Instruction.node? : Instruction → List Nat → Option Instruction
  | i, [] => some i
  | i, k :: path => i.operands[k]?.bind fun c => c.node? path

/-- The node that a path leads to in a body. The first number is that of a top-level instruction. -/
def Body.node? (body : Body) : List Nat → Option Instruction
  | [] => none
  | k :: path => body.instructions[k]?.bind fun i => i.node? path

/-- The nodes of a tree, depth first, each with the path that leads to it. -/
def Instruction.rows (i : Instruction) : List (List Nat × Instruction) :=
  ([], i) :: i.operands.attach.zipIdx.flatMap fun entry =>
    entry.1.val.rows.map fun row => (entry.2 :: row.1, row.2)
termination_by sizeOf i
decreasing_by exact sizeOf_lt_of_mem_operands entry.1.property

/-- The nodes of trees in a row, tree by tree. -/
def forestRows (trees : List Instruction) : List (List Nat × Instruction) :=
  trees.zipIdx.flatMap fun entry => entry.1.rows.map fun row => (entry.2 :: row.1, row.2)

theorem Instruction.rows_eq (i : Instruction) : i.rows = ([], i) :: forestRows i.operands := by
  have hoperands : i.operands.zipIdx = i.operands.attach.zipIdx.map (Prod.map Subtype.val id) := by
    rw [← List.zipIdx_map, List.attach_map_subtype_val]
  rw [rows, forestRows, hoperands, List.flatMap_map]
  rfl

theorem mem_forestRows {trees : List Instruction} {path : List Nat} {node : Instruction} :
    (path, node) ∈ forestRows trees ↔
      ∃ k tail c, path = k :: tail ∧ trees[k]? = some c ∧ (tail, node) ∈ c.rows := by
  constructor
  · intro h
    obtain ⟨⟨c, k⟩, hc, h⟩ := List.mem_flatMap.1 h
    obtain ⟨⟨tail, found⟩, hrow, heq⟩ := List.mem_map.1 h
    cases heq
    exact ⟨k, tail, c, rfl, List.mem_zipIdx_iff_getElem?.1 hc, hrow⟩
  · rintro ⟨k, tail, c, rfl, hc, hrow⟩
    apply List.mem_flatMap.2
    exact ⟨(c, k), List.mem_zipIdx_iff_getElem?.2 hc, List.mem_map.2 ⟨(tail, node), hrow, rfl⟩⟩

/-- The rows of a tree are its nodes, each under its path. -/
theorem Instruction.mem_rows {i : Instruction} {path : List Nat} {node : Instruction} :
    (path, node) ∈ i.rows ↔ i.node? path = some node := by
  induction path generalizing i with
  | nil =>
      rw [rows_eq, List.mem_cons, mem_forestRows, node?, Option.some.injEq]
      constructor
      · rintro (heq | ⟨k, tail, c, hpath, -⟩)
        · exact (Prod.mk.inj heq).2.symm
        · cases hpath
      · rintro rfl
        exact .inl rfl
  | cons k path ih =>
      rw [rows_eq, List.mem_cons, mem_forestRows, node?, Option.bind_eq_some_iff]
      constructor
      · rintro (heq | ⟨k', tail, c, hpath, hc, hrow⟩)
        · cases heq
        · cases hpath
          exact ⟨c, hc, ih.1 hrow⟩
      · rintro ⟨c, hc, hnode⟩
        exact .inr ⟨k, path, c, rfl, hc, ih.2 hnode⟩

/-- The rows of trees under one depth, without their paths. -/
theorem map_forestRows {β : Type} (trees : List Instruction) (f : Nat → Instruction → β) :
    (forestRows trees).map (fun row => f row.1.length row.2) =
      trees.flatMap fun c => c.rows.map fun row => f (row.1.length + 1) row.2 := by
  have htrees : trees = trees.zipIdx.map Prod.fst := (List.zipIdx_map_fst 0 trees).symm
  rw [forestRows, List.map_flatMap]
  conv => rhs; rw [htrees, List.flatMap_map]
  simp only [List.map_map]
  rfl

/-- Visiting a tree goes through its rows, with the lengths of the paths as depths. -/
theorem Instruction.visitFrom_eq_rows (i : Instruction) (depth : Nat) :
    i.visitFrom depth = i.rows.map fun row => (depth + row.1.length, row.2) := by
  induction i using inductionOnOperands generalizing depth with
  | step i ih =>
    rw [rows_eq, List.map_cons, map_forestRows i.operands fun length node => (depth + length, node), visitFrom_eq]
    congr 1
    apply List.flatMap_congr
    intro c hc
    rw [ih c hc]
    simp only [Nat.add_assoc, Nat.add_comm 1]

/-- Paths of trees in a row stand in lexicographic order if those of each tree do. -/
theorem forestRows_sorted {trees : List Instruction} (h : ∀ c ∈ trees, c.rows.Pairwise fun a b => a.1 < b.1) :
    (forestRows trees).Pairwise fun a b => a.1 < b.1 := by
  have hnumbers : trees.zipIdx.Pairwise fun a b => a.2 < b.2 := by
    rw [← List.pairwise_map (f := Prod.snd) (R := fun k l => k < l), List.zipIdx_map_snd]
    exact List.pairwise_lt_range' 1
  rw [forestRows, List.pairwise_flatMap]
  constructor
  · rintro ⟨c, k⟩ hc
    rw [List.pairwise_map]
    have hmem : c ∈ trees := List.mem_of_getElem? (List.mem_zipIdx_iff_getElem?.1 hc)
    exact (h c hmem).imp fun hlt => List.cons_lt_cons_iff.2 (.inr ⟨rfl, hlt⟩)
  · refine hnumbers.imp fun {first second} hlt a ha b hb => ?_
    obtain ⟨row, -, rfl⟩ := List.mem_map.1 ha
    obtain ⟨row', -, rfl⟩ := List.mem_map.1 hb
    exact List.cons_lt_cons_iff.2 (.inl hlt)

/-- The paths of a tree stand in lexicographic order, so each stands there once. -/
theorem Instruction.rows_sorted (i : Instruction) : i.rows.Pairwise fun a b => a.1 < b.1 := by
  induction i using inductionOnOperands with
  | step i ih =>
    rw [rows_eq, List.pairwise_cons]
    constructor
    · rintro ⟨path, node⟩ hrow
      obtain ⟨k, tail, c, rfl, -⟩ := mem_forestRows.1 hrow
      exact List.nil_lt_cons k tail
    · exact forestRows_sorted ih

/-!
### Addresses
-/

/-- The first instruction starts before the second one, in both address spaces. -/
def Instruction.Before (i j : Instruction) : Prop :=
  i.position < j.position ∧ i.storagePosition < j.storagePosition

/-- Operands stand in their instruction, which is not empty. -/
structure Instruction.Laid (i : Instruction) : Prop where
  nests : i.Nests
  nonempty : 1 ≤ i.size ∧ 1 ≤ i.storageSize

theorem Instruction.Contains.of_mem_rows {i : Instruction} {row : List Nat × Instruction} (h : row ∈ i.rows) :
    i.Contains row.2 := by
  refine ⟨0 + row.1.length, ?_⟩
  rw [visit, visitFrom_eq_rows]
  exact List.mem_map.2 ⟨row, h, rfl⟩

theorem readInstruction_laid {dialect : Dialect} {levels : Nat} {place next : Place} {i : Instruction}
    (h : readInstruction dialect levels place = .ok i next) : i.Laid where
  nests := readInstruction_nests h
  nonempty := ⟨(readInstruction_spans h).size_pos, (readInstruction_spans h).storageSize_pos⟩

/-- Whatever stands in an instruction starts before whatever stands in a later one. -/
theorem Instruction.Precedes.before {i j : Instruction} (h : i.Precedes j) (hi : i.Everywhere Laid)
    (hj : j.Everywhere Laid) {a b : Instruction} (ha : i.Contains a) (hb : j.Contains b) : a.Before b := by
  obtain ⟨-, hend, hstorageEnd⟩ := ha.within fun node hnode => (hi node hnode).nests
  obtain ⟨⟨hstart, hstorageStart⟩, -⟩ := hb.within fun node hnode => (hj node hnode).nests
  obtain ⟨hsize, hstorageSize⟩ := (hi a ha).nonempty
  obtain ⟨hbefore, hstorageBefore⟩ := h
  unfold endPosition at hend hbefore
  unfold storageEnd at hstorageEnd hstorageBefore
  constructor
  · omega
  · omega

/-- Trees that stand one behind the other have increasing addresses if each of them has. -/
theorem forestRows_increasing {trees : List Instruction} (hordered : trees.Pairwise Instruction.Precedes)
    (hlaid : ∀ c ∈ trees, c.Everywhere Instruction.Laid)
    (h : ∀ c ∈ trees, c.rows.Pairwise fun a b => a.2.Before b.2) :
    (forestRows trees).Pairwise fun a b => a.2.Before b.2 := by
  have hnodes := map_forestRows trees fun _ node => node
  rw [← List.pairwise_map (R := Instruction.Before), hnodes, List.pairwise_flatMap]
  constructor
  · intro c hc
    exact List.pairwise_map.2 (h c hc)
  · refine hordered.imp_of_mem fun {c d} hc hd hprecedes a ha b hb => ?_
    obtain ⟨row, hrow, rfl⟩ := List.mem_map.1 ha
    obtain ⟨row', hrow', rfl⟩ := List.mem_map.1 hb
    exact hprecedes.before (hlaid c hc) (hlaid d hd) (.of_mem_rows hrow) (.of_mem_rows hrow')

/-- Both addresses grow along the rows of a tree. -/
theorem Instruction.rows_increasing {i : Instruction} (h : i.Everywhere Laid) :
    i.rows.Pairwise fun a b => a.2.Before b.2 := by
  induction i using inductionOnOperands with
  | step i ih =>
    obtain ⟨⟨hnests, -⟩, hoperands⟩ := everywhere_iff.1 h
    rw [rows_eq, List.pairwise_cons]
    constructor
    · rintro ⟨path, node⟩ hrow
      obtain ⟨k, tail, c, rfl, hc, hnode⟩ := mem_forestRows.1 hrow
      have hmem : c ∈ i.operands := List.mem_of_getElem? hc
      obtain ⟨hposition, hstorage⟩ := hnests.starts c hmem
      obtain ⟨⟨hstart, hstorageStart⟩, -⟩ := (Contains.of_mem_rows hnode).within
        fun node hnode => (hoperands c hmem node hnode).nests
      exact ⟨Nat.lt_of_lt_of_le hposition hstart, Nat.lt_of_lt_of_le hstorage hstorageStart⟩
    · exact forestRows_increasing hnests.ordered hoperands
        fun c hc => ih c hc (hoperands c hc)

/-- Instructions of a tiling stand one behind the other in both address spaces. -/
theorem Tiles.precedes {position offset : Nat} {instructions : List Instruction}
    (h : Tiles position offset instructions) :
    (∀ i ∈ instructions, position ≤ i.position ∧ offset ≤ i.storagePosition) ∧
      instructions.Pairwise Instruction.Precedes := by
  induction instructions generalizing position offset with
  | nil => exact ⟨List.forall_mem_nil _, .nil⟩
  | cons first rest ih =>
      obtain ⟨rfl, rfl, -, -, hrest⟩ := h
      obtain ⟨hstarts, hpairwise⟩ := ih hrest
      refine ⟨fun i hi => ?_, List.pairwise_cons.2 ⟨hstarts, hpairwise⟩⟩
      rcases List.mem_cons.1 hi with rfl | hi
      · exact ⟨Nat.le_refl _, Nat.le_refl _⟩
      · obtain ⟨hposition, hoffset⟩ := hstarts i hi
        exact ⟨Nat.le_trans (Nat.le_add_right _ _) hposition, Nat.le_trans (Nat.le_add_right _ _) hoffset⟩

/-!
### The listing
-/

/-- The line of a row; top-level instructions have a path of one number and no indentation. -/
def rowLine (row : List Nat × Instruction) : String := row.2.line (row.1.length - 1)

theorem Body.listingLines_eq (body : Body) : body.listingLines =
    body.listingHeader :: (forestRows body.instructions.toList).map rowLine ++ body.listingFooter.toList := by
  have hrows : (forestRows body.instructions.toList).map rowLine =
      body.instructions.toList.flatMap fun i => i.visit.map fun entry => entry.2.line entry.1 := by
    refine (map_forestRows _ fun length node => node.line (length - 1)).trans (List.flatMap_congr fun i _ => ?_)
    rw [Instruction.visit, Instruction.visitFrom_eq_rows, List.map_map]
    simp only [Function.comp_def, Nat.zero_add, Nat.add_sub_cancel]
  rw [hrows]
  rfl

/-- The rows of the top-level trees are the nodes of a body, each under its path. -/
theorem Body.mem_rows {body : Body} {path : List Nat} {node : Instruction} :
    (path, node) ∈ forestRows body.instructions.toList ↔ body.node? path = some node := by
  rw [mem_forestRows]
  cases path with
  | nil => simp [node?]
  | cons k path => simp [node?, Instruction.mem_rows, Option.bind_eq_some_iff]

/-- What a listing shows of a body whose nodes are the given rows. -/
structure Body.Listed (body : Body) (rows : List (List Nat × Instruction)) : Prop where
  /-- The rows are the nodes at all depths, each under the path that leads to it. -/
  nodes : ∀ path node, (path, node) ∈ rows ↔ body.node? path = some node
  /-- They stand in depth-first order, so each of them stands there once. -/
  sorted : rows.Pairwise fun a b => a.1 < b.1
  /-- Between its line feeds the listing has a header, the line of each row and, if there is one, a footer. -/
  lines : body.listing.toList.splitOn '\n' =
    body.listingHeader.toList :: rows.map (fun row => (rowLine row).toList) ++
      body.listingFooter.toList.map String.toList ++ [[]]
  /-- There is a footer if and only if decoding failed or the size is not the declared one. -/
  footer : body.listingFooter.isSome = true ↔ body.failure.isSome = true ∨ body.consumed ≠ body.declaredSize
  /-- A line shows where its node stands, and is indented by two blanks for each level. -/
  columns : ∀ row ∈ rows, Text.readColumns (rowLine row).toList =
    ⟨row.2.position, row.2.storagePosition, 2 * (row.1.length - 1)⟩
  /-- The addresses that the lines show increase from each line to the next. -/
  increasing : (rows.map fun row => Text.readColumns (rowLine row).toList).Pairwise fun a b =>
    a.position < b.position ∧ a.storagePosition < b.storagePosition

/-- The listing of a decoded body shows every node once, in the order of both address spaces, whatever its bytes are:
    no string constant adds a line or takes one away. Only the name of the declaration is written as it is. -/
theorem decode_listed (source : Source) (dialect : Dialect) (h : Text.OneLine source.declaration) :
    ∃ rows, (source.decode dialect).Listed rows := by
  have hlaid : ∀ i ∈ (source.decode dialect).instructions.toList, i.Everywhere Instruction.Laid :=
    fun i hi => decode_everywhere readInstruction_laid source i (Array.mem_toList_iff.1 hi)
  refine ⟨forestRows (source.decode dialect).instructions.toList, ?_, ?_, ?_, ?_, ?_, ?_⟩
  · intro path node
    exact Body.mem_rows
  · exact forestRows_sorted fun i _ => i.rows_sorted
  · rw [Body.listing, Text.splitOn_join (Body.oneLine_listingLines h), Body.listingLines_eq]
    simp only [List.map_append, List.map_cons, List.map_map, Function.comp_def]
  · exact Body.isSome_listingFooter _
  · exact fun row _ => row.2.readColumns_line _
  · rw [List.pairwise_map]
    simp only [rowLine, Instruction.readColumns_line]
    exact forestRows_increasing (decode_tiles source dialect).precedes.2 hlaid
      fun i hi => Instruction.rows_increasing (hlaid i hi)

/-- The return of a text with a line feed, in code that was declared to be longer. -/
def brokenText : Source := ⟨"Say", [0x04, 0x1F, 0x61, 0x0A, 0x62, 0x00, 0x0B], 12⟩

theorem decode_listed_brokenText :
    Text.OneLine brokenText.declaration ∧ ∃ rows, (brokenText.decode (stockDialect 600)).Listed rows ∧
      (∃ node, ([0, 0], node) ∈ rows ∧ node.token = .stringConst "a\nb") ∧
      (brokenText.decode (stockDialect 600)).listingFooter.isSome = true := by
  have hname : Text.OneLine brokenText.declaration := .ofChars _ rfl
  obtain ⟨rows, hlisted⟩ := decode_listed brokenText (stockDialect 600) hname
  refine ⟨hname, rows, hlisted, ⟨_, (hlisted.nodes [0, 0] _).2 rfl, rfl⟩, ?_⟩
  exact hlisted.footer.2 (.inr (by decide))

end ScriptBytecode
