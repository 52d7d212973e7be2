/-
Module: ScriptBytecode.Proofs.Structured.Stage
Purpose: A walk over structured code between two statements. What is queued is then known exactly: the `do` loops that
  lie ahead, and the ends of the blocks around. The markers that are due at one position take effect one after the
  other; each of them can be carried out by itself before the rest, which is how the blocks of a statement are followed
  from its first instruction to its last.
Main exports: Walk.reconcile_begin, Walk.reconcile_end, Walk.reconcile_loop, Stage,
  Stage.note, Stage.opensBlock, Stage.opensLoop, Stage.breaks, Stage.closes, Stage.closesQueued, Stage.takesElse
-/
import ScriptBytecode.Proofs.Structured.Flow
import ScriptBytecode.Proofs.Walk.Remainder

namespace ScriptBytecode

/-- Lines of one event more. -/
theorem rowsAfter_concat {options : Options} {events : List Event} {chain last : List OpenBlock}
    (h : events.foldlM Event.follow chain = some last) (e : Event) :
    rowsAfter options chain (events ++ [e]) = rowsAfter options chain events ++ e.rows options last := by
  induction events generalizing chain with
  | nil =>
      cases h
      simp [rowsAfter]
  | cons first rest ih =>
      rw [List.foldlM_cons] at h
      obtain ⟨next, hfollow, hrest⟩ := Option.bind_eq_some_iff.1 h
      simp [rowsAfter, hfollow, ih hrest]

namespace BlockKind

/-- The lines of the braces of a block; arms of a `switch` have none. -/
def braces (kind : BlockKind) (texts : List String) : List String := if kind.isLabelLike then [] else texts

variable {kind : BlockKind}

theorem braces_of_arm (texts : List String) (h : kind.isLabelLike = true) : kind.braces texts = [] := if_pos h

theorem braces_of_block (texts : List String) (h : kind.isLabelLike = false) : kind.braces texts = texts :=
  if_neg (by simp [h])

end BlockKind

namespace Blocks

/-- Loops that begin at one position and of which a later one ends later begin from the last one on. -/
theorem mergeSort_eq_reverse {markers : List Marker} {cursor : Nat}
    (hposition : ∀ m ∈ markers, m.position = cursor)
    (hends : markers.Pairwise fun a b => a.blockEnd < b.blockEnd) :
    markers.mergeSort beginsNoLater = markers.reverse := by
  have hperm : (markers.mergeSort beginsNoLater).Perm markers.reverse :=
    (List.mergeSort_perm ..).trans (List.reverse_perm markers).symm
  have hsorted := List.pairwise_mergeSort beginsNoLater_trans beginsNoLater_total markers
  have hreverse : markers.reverse.Pairwise fun a b => beginsNoLater a b = true := by
    rw [List.pairwise_reverse]
    refine hends.imp_of_mem fun ha hb hlt => ?_
    simp [beginsNoLater, hposition _ ha, hposition _ hb, Nat.le_of_lt hlt]
  have hnodup : (markers.map (·.blockEnd)).Nodup :=
    (List.pairwise_map.2 hends).imp Nat.ne_of_lt
  refine hperm.eq_of_pairwise (fun a b ha hb hab hba => ?_) hsorted hreverse
  have ha := (List.mergeSort_perm ..).mem_iff.1 ha
  have hb := List.mem_reverse.1 hb
  refine List.inj_on_of_nodup_map hnodup ha hb ?_
  rw [beginsNoLater_iff, hposition a ha, hposition b hb] at hab hba
  omega

/-- An end of the innermost block is taken if it is due and the only one. -/
theorem takeEnd?_of_last {blocks : Blocks} {horizon : Horizon} {top : OpenBlock}
    {outer : List OpenBlock} {e : Marker} (hchain : blocks.chain = top :: outer)
    (hnone : ∀ m ∈ blocks.pending, isEndOf top.id m = false) (he : isEndOf top.id e = true)
    (hdue : horizon.reaches e.position = true) :
    takeEnd? { blocks with pending := blocks.pending ++ [e] } horizon = some (e, blocks) := by
  have hfind : (blocks.pending ++ [e]).find?
      (fun m => isEndOf top.id m && horizon.reaches m.position) = some e := by
    rw [List.find?_append, List.find?_eq_none.2 fun m hm => by simp [hnone m hm]]
    simp [he, hdue]
  have herase : (blocks.pending ++ [e]).eraseP
      (fun m => isEndOf top.id m && horizon.reaches m.position) = blocks.pending := by
    rw [List.eraseP_append_right _ fun m hm => by simp [hnone m hm]]
    simp [he, hdue]
  unfold takeEnd? innermost?
  simp only [hchain, List.head?_cons, Option.bind_eq_bind, Option.bind_some, hfind, herase]
  rw [← hchain]
  rfl

end Blocks

namespace Walk

/-!
### One marker at a time
-/

/-- A begin that is due takes effect before all else. -/
theorem reconcile_begin {walk : Walk} {cursor : Nat} {before after : List Marker} {marker : Marker}
    (hpending : walk.blocks.pending = before ++ marker :: after)
    (hothers : ∀ m ∈ before ++ after, Blocks.isDue (.upTo cursor) false m = false)
    (hdue : Blocks.isDue (.upTo cursor) false marker = true) :
    walk.reconcile cursor =
      (Walk.enter { walk with blocks := { walk.blocks with pending := before ++ after } }
        marker).reconcile cursor := by
  have hbefore : ∀ m ∈ before, Blocks.isDue (.upTo cursor) false m = false := fun m hm =>
    hothers m (List.mem_append_left _ hm)
  have hafter : ∀ m ∈ after, Blocks.isDue (.upTo cursor) false m = false := fun m hm =>
    hothers m (List.mem_append_right _ hm)
  have hopen : walk.openDue (.upTo cursor) false =
      Walk.enter { walk with blocks := { walk.blocks with pending := before ++ after } } marker := by
    have hmarkers : (walk.blocks.takeBegins (.upTo cursor) false).1 = [marker] := by
      rw [Blocks.takeBegins_plain, hpending, List.filter_append, List.filter_cons_of_pos hdue,
        List.filter_eq_nil_iff.2 fun m hm => by simp [hbefore m hm],
        List.filter_eq_nil_iff.2 fun m hm => by simp [hafter m hm]]
      rfl
    have hwaiting : (walk.blocks.takeBegins (.upTo cursor) false).2 =
        { walk.blocks with pending := before ++ after } := by
      rw [Blocks.takeBegins_rest, hpending, List.filter_append,
        List.filter_cons_of_neg (by simp [hdue]),
        List.filter_eq_self.2 fun m hm => by simp [hbefore m hm],
        List.filter_eq_self.2 fun m hm => by simp [hafter m hm]]
    rw [openDue_eq, hmarkers, hwaiting]
    rfl
  rw [reconcile_of_no_begin fun m hm => hothers m ((enter_pending _ marker).subset hm), ← hopen]
  rfl

/-- The end of the innermost block, if it is due, takes effect before other ends. -/
theorem reconcile_end {walk : Walk} {cursor : Nat} {marker : Marker} {rest : Blocks}
    (hplain : ∀ m ∈ walk.blocks.pending, Blocks.isDue (.upTo cursor) false m = false)
    (htaken : walk.blocks.takeEnd? (.upTo cursor) = some (marker, rest)) :
    walk.reconcile cursor =
      (Walk.close { walk with blocks := rest } marker.kind marker.id marker.text).reconcile cursor := by
  obtain ⟨top, outer, hchain, -, hid, -, -, hrest⟩ := Blocks.takeEnd?_eq_some htaken
  have hblocks : (Walk.close { walk with blocks := rest } marker.kind marker.id marker.text).blocks =
      { rest with chain := outer } := by
    rw [hid]
    exact Blocks.leave_innermost (by rw [hrest]; exact hchain)
  rw [reconcile_of_no_begin hplain, reconcile_of_no_begin fun m hm => ?_]
  · rw [hblocks, hchain, List.length_cons]
    simp only [Walk.closeDue, htaken]
  · rw [hblocks, hrest] at hm
    exact hplain m (List.mem_of_mem_eraseP hm)

/-- If nothing but the begins of `do` loops is due, these open. -/
theorem reconcile_of_loops {walk : Walk} {cursor : Nat}
    (h : ∀ m ∈ walk.blocks.pending, m.side = .opening ∧ m.deferred = true ∨ cursor < m.position) :
    walk.reconcile cursor = walk.openDue (.upTo cursor) true := by
  rw [reconcile_of_no_begin, closeDue_of_none]
  · intro m hm hclosing
    rcases h m hm with ⟨hopening, -⟩ | hlt
    · rw [hopening] at hclosing
      cases hclosing
    · simp [Horizon.reaches, hlt]
  · intro m hm
    rcases h m hm with ⟨-, hdeferred⟩ | hlt
    · exact Blocks.isDue_of_deferred hdeferred
    · exact Blocks.isDue_of_lt hlt

/-- Of the `do` loops that begin at a position the outermost one takes effect before the others, if no end is due. The
    loops are queued by their ends, so the outermost one comes after those inside it. -/
theorem reconcile_loop {walk : Walk} {cursor : Nat} {inner later : List Marker} {marker : Marker}
    (hpending : walk.blocks.pending = inner ++ marker :: later)
    (hinner : ∀ m ∈ inner, m.side = .opening ∧ m.deferred = true ∧ cursor ≤ m.position)
    (hlater : ∀ m ∈ later, cursor < m.position)
    (hkind : marker.kind = .loop) (hside : marker.side = .opening) (hdeferred : marker.deferred = true)
    (hposition : marker.position = cursor)
    (hends : (inner ++ [marker]).Pairwise fun a b => a.blockEnd < b.blockEnd) :
    walk.reconcile cursor =
      (Walk.enter { walk with blocks := { walk.blocks with pending := inner ++ later } }
        marker).reconcile cursor := by
  have hmarkers : ∀ m ∈ inner ++ marker :: later,
      m.side = .opening ∧ m.deferred = true ∨ cursor < m.position := by
    simp only [List.forall_mem_append, List.forall_mem_cons]
    exact ⟨fun m hm => Or.inl ⟨(hinner m hm).1, (hinner m hm).2.1⟩, Or.inl ⟨hside, hdeferred⟩,
      fun m hm => Or.inr (hlater m hm)⟩
  have hdue : Blocks.isDue (.upTo cursor) true marker = true := by
    simp [Blocks.isDue, hside, hdeferred, Horizon.reaches, hposition]
  set ready := inner.filter (Blocks.isDue (.upTo cursor) true) with hready
  have hnone : later.filter (Blocks.isDue (.upTo cursor) true) = [] :=
    List.filter_eq_nil_iff.2 fun m hm => by simp [Blocks.isDue_of_lt (hlater m hm)]
  have hat : ∀ m ∈ ready ++ [marker], m.position = cursor := by
    simp only [List.forall_mem_append, List.forall_mem_singleton]
    refine ⟨fun m hm => ?_, hposition⟩
    obtain ⟨hm, hdue⟩ := List.mem_filter.1 hm
    have hle := (Blocks.isDue_iff.1 hdue).2.2
    simp only [Horizon.reaches, decide_eq_true_eq] at hle
    exact Nat.le_antisymm hle (hinner m hm).2.2
  have hincreasing : (ready ++ [marker]).Pairwise fun a b => a.blockEnd < b.blockEnd :=
    hends.sublist (List.filter_sublist.append_right _)
  have hall : (walk.blocks.takeBegins (.upTo cursor) true).1 = marker :: ready.reverse := by
    rw [Blocks.takeBegins_deferred, hpending, List.filter_append, List.filter_cons_of_pos hdue, hnone,
      Blocks.mergeSort_eq_reverse hat hincreasing, List.reverse_concat]
  have hothers : ((inner ++ later).filter (Blocks.isDue (.upTo cursor) true)).mergeSort
      Blocks.beginsNoLater = ready.reverse := by
    rw [List.filter_append, hnone, List.append_nil]
    exact Blocks.mergeSort_eq_reverse (fun m hm => hat m (List.mem_append_left _ hm))
      (List.pairwise_append.1 hincreasing).1
  have henter := enter_of_kind { walk with blocks := { walk.blocks with pending := inner ++ later } }
    (by simp [hkind] : marker.kind ≠ .switchBreak) (by simp [hkind])
  rw [reconcile_of_loops (hpending ▸ hmarkers), henter, reconcile_of_loops fun m hm => hmarkers m ?_]
  · rw [openDue_eq, openDue_eq, hall, Blocks.takeBegins_rest, Blocks.takeBegins_rest,
      Blocks.takeBegins_deferred, hpending, List.foldl_cons]
    dsimp only [Walk.emit, Blocks.enter]
    rw [hothers, enter_of_kind _ (by simp [hkind] : marker.kind ≠ .switchBreak) (by simp [hkind])]
    simp [hdue, Walk.emit, Blocks.enter]
  · rcases List.mem_append.1 hm with hm | hm <;> simp [hm]

end Walk

/-!
### Between two statements
-/

/-- Between two statements the begins of the loops ahead and the ends of blocks around are queued, in this order, and
    the events so far stand for some lines. No label is known. -/
structure Stage (options : Options) (walk : Walk) (loops ends : List Marker) (chain : List OpenBlock)
    (rows : List Row) : Prop where
  labels : walk.labels = {}
  pending : walk.blocks.pending = loops ++ ends
  chain_eq : walk.blocks.chain = chain
  follows : openAfter walk.events.toList = some chain
  rows_eq : rowsAfter options [] walk.events.toList = rows
  opening : ∀ m ∈ loops, m.side = .opening ∧ m.deferred = true
  closing : ∀ m ∈ ends, m.side = .closing
  numbered : ∀ m ∈ loops ++ ends, m.id < walk.blocks.nextId
  apart : ∀ m ∈ loops, ∀ e ∈ ends, e.id ≠ m.id

namespace Stage

variable {options : Options} {walk : Walk} {loops ends : List Marker} {chain : List OpenBlock}
  {rows : List Row} {cursor : Nat}

theorem isDue (h : Stage options walk loops ends chain rows) :
    ∀ m ∈ walk.blocks.pending, Blocks.isDue (.upTo cursor) false m = false := by
  rw [h.pending]
  exact List.forall_mem_append.2 ⟨fun m hm => Blocks.isDue_of_deferred (h.opening m hm).2,
    fun m hm => Blocks.isDue_of_closing (h.closing m hm)⟩

theorem reconcile_of_quiet (h : Stage options walk loops ends chain rows)
    (hlater : ∀ m ∈ loops ++ ends, cursor < m.position) : walk.reconcile cursor = walk :=
  Walk.reconcile_of_quiet (h.pending ▸ hlater)

/-- Only a marker with the number of a block ends it. -/
theorem isEndOf (h : Stage options walk loops ends chain rows) {others : List Marker} {id : Nat}
    (hapart : ∀ m ∈ others, m.id ≠ id) : ∀ m ∈ loops ++ others, Blocks.isEndOf id m = false :=
  List.forall_mem_append.2 ⟨fun m hm => by simp [Blocks.isEndOf, (h.opening m hm).1],
    fun m hm => by simp [Blocks.isEndOf, hapart m hm]⟩

/-- A begin that was queued after all else, with ends behind it, takes effect first. -/
theorem reconcile_queued (h : Stage options walk loops ends chain rows) (marker : Marker)
    (extra : List Marker) (nextId : Nat) (hside : marker.side = .opening)
    (hdeferred : marker.deferred = false) (hposition : marker.position ≤ cursor)
    (hextra : ∀ m ∈ extra, m.side = .closing) :
    Walk.reconcile { walk with
      blocks := { walk.blocks with
        pending := walk.blocks.pending ++ marker :: extra, nextId } } cursor =
      (Walk.enter { walk with
        blocks := { walk.blocks with
          pending := walk.blocks.pending ++ extra, nextId } } marker).reconcile cursor := by
  have hdue : Blocks.isDue (.upTo cursor) false marker = true := by
    simp [Blocks.isDue, hside, hdeferred, Horizon.reaches, hposition]
  have hothers : ∀ m ∈ walk.blocks.pending ++ extra, Blocks.isDue (.upTo cursor) false m = false :=
    List.forall_mem_append.2 ⟨h.isDue, fun m hm => Blocks.isDue_of_closing (hextra m hm)⟩
  exact Walk.reconcile_begin rfl hothers hdue

/-- The end of a new block, which has a number of its own, can be queued. -/
theorem queueable (h : Stage options walk loops ends chain rows) {extra : List Marker} {nextId : Nat}
    (hextra : ∀ m ∈ extra, m.side = .closing ∧ m.id = walk.blocks.nextId)
    (hnext : walk.blocks.nextId < nextId) :
    (∀ m ∈ ends ++ extra, m.side = .closing) ∧ (∀ m ∈ loops ++ (ends ++ extra), m.id < nextId) ∧
      ∀ m ∈ loops, ∀ e ∈ ends ++ extra, e.id ≠ m.id := by
  refine ⟨List.forall_mem_append.2 ⟨h.closing, fun m hm => (hextra m hm).1⟩, ?_, fun m hm => ?_⟩
  · rw [← List.append_assoc]
    refine List.forall_mem_append.2 ⟨fun m hm => Nat.lt_trans (h.numbered m hm) hnext, fun m hm => ?_⟩
    rw [(hextra m hm).2]
    exact hnext
  · refine List.forall_mem_append.2 ⟨h.apart m hm, fun e he => ?_⟩
    rw [(hextra e he).2]
    exact Nat.ne_of_gt (h.numbered m (List.mem_append_left _ hm))

/-- The walk as it would be without the end that was queued last. -/
theorem without {e : Marker} (h : Stage options walk loops (ends ++ [e]) chain rows) :
    Stage options { walk with blocks := { walk.blocks with pending := loops ++ ends } } loops ends chain
      rows where
  labels := h.labels
  pending := rfl
  chain_eq := h.chain_eq
  follows := h.follows
  rows_eq := h.rows_eq
  opening := h.opening
  closing m hm := h.closing m (List.mem_append_left _ hm)
  numbered m hm := by
    refine h.numbered m ?_
    rw [← List.append_assoc]
    exact List.mem_append_left _ hm
  apart m hm e he := h.apart m hm e (List.mem_append_left _ he)

/-- What follows one event more. -/
theorem emitted (h : Stage options walk loops ends chain rows) {e : Event} {next : List OpenBlock}
    (hfollow : e.follow chain = some next) :
    openAfter (walk.events.push e).toList = some next ∧
      rowsAfter options [] (walk.events.push e).toList = rows ++ e.rows options chain := by
  rw [Array.toList_push]
  refine ⟨?_, ?_⟩
  · rw [openAfter_concat, h.follows]
    exact hfollow
  · rw [rowsAfter_concat h.follows, h.rows_eq]

/-- An event that opens and closes nothing. -/
theorem note (h : Stage options walk loops ends chain rows) {e : Event}
    (hfollow : e.follow chain = some chain) (opcode : Opcode) :
    Stage options { walk.emit e with previous := some opcode } loops ends chain
      (rows ++ e.rows options chain) := by
  obtain ⟨hfollows, hrows⟩ := h.emitted hfollow
  exact { h with follows := hfollows, rows_eq := hrows }

/-- A begin takes effect and opens a block. -/
theorem entered (h : Stage options walk loops ends chain rows) {marker : Marker}
    {loops' ends' : List Marker} {nextId : Nat}
    (hbreak : marker.kind ≠ .switchBreak) (helse : marker.kind ≠ .elseBlock)
    (hopening : ∀ m ∈ loops', m.side = .opening ∧ m.deferred = true)
    (hclosing : ∀ m ∈ ends', m.side = .closing)
    (hnumbered : ∀ m ∈ loops' ++ ends', m.id < nextId)
    (hapart : ∀ m ∈ loops', ∀ e ∈ ends', e.id ≠ m.id) :
    Stage options
      (Walk.enter { walk with
        blocks := { walk.blocks with pending := loops' ++ ends', nextId } } marker) loops' ends'
      (marker.block :: chain)
      (rows ++ rowsAt chain.length (marker.kind.braces (options.openBraces (marker.text.getD "")))) := by
  obtain ⟨hfollows, hrows⟩ := h.emitted (e := .opened marker.block (marker.text.getD "")) rfl
  rw [Walk.enter_of_kind _ hbreak helse]
  exact ⟨h.labels, rfl, congrArg (marker.block :: ·) h.chain_eq, hfollows, hrows, hopening, hclosing, hnumbered,
    hapart⟩

/-- A begin that was queued after all else opens a block. -/
theorem opensBlock (h : Stage options walk loops ends chain rows) (marker : Marker)
    (extra : List Marker) {nextId : Nat} (hside : marker.side = .opening)
    (hdeferred : marker.deferred = false) (hposition : marker.position ≤ cursor)
    (hbreak : marker.kind ≠ .switchBreak) (helse : marker.kind ≠ .elseBlock)
    (hextra : ∀ m ∈ extra, m.side = .closing ∧ m.id = walk.blocks.nextId)
    (hnext : walk.blocks.nextId < nextId) :
    ∃ next,
      Walk.reconcile { walk with
        blocks := { walk.blocks with
          pending := walk.blocks.pending ++ marker :: extra, nextId } } cursor =
        next.reconcile cursor ∧
      Stage options next loops (ends ++ extra) (marker.block :: chain)
        (rows ++ rowsAt chain.length (marker.kind.braces (options.openBraces (marker.text.getD "")))) := by
  obtain ⟨hclosing, hnumbered, hapart⟩ := h.queueable hextra hnext
  refine ⟨_, h.reconcile_queued marker extra nextId hside hdeferred hposition fun m hm =>
    (hextra m hm).1, ?_⟩
  rw [h.pending, List.append_assoc]
  exact h.entered hbreak helse h.opening hclosing hnumbered hapart

/-- The outermost of the loops that begin at a position opens. -/
theorem opensLoop {inner later : List Marker} {marker : Marker}
    (h : Stage options walk (inner ++ marker :: later) ends chain rows)
    (hinner : ∀ m ∈ inner, cursor ≤ m.position) (hlater : ∀ m ∈ later ++ ends, cursor < m.position)
    (hkind : marker.kind = .loop) (hposition : marker.position = cursor)
    (hends : (inner ++ [marker]).Pairwise fun a b => a.blockEnd < b.blockEnd) :
    ∃ next, walk.reconcile cursor = next.reconcile cursor ∧
      Stage options next (inner ++ later) ends (marker.block :: chain)
        (rows ++ rowsAt chain.length (options.openBraces (marker.text.getD ""))) := by
  have hsub : ∀ m ∈ inner ++ later, m ∈ inner ++ marker :: later := fun m hm => by
    rcases List.mem_append.1 hm with hm | hm <;> simp [hm]
  have hopening := h.opening marker (by simp)
  have hpending : walk.blocks.pending = inner ++ marker :: (later ++ ends) := by
    rw [h.pending, List.append_assoc, List.cons_append]
  refine ⟨_, Walk.reconcile_loop hpending (fun m hm => ?_) hlater hkind hopening.1 hopening.2 hposition
    hends, ?_⟩
  · have hm' := h.opening m (List.mem_append_left _ hm)
    exact ⟨hm'.1, hm'.2, hinner m hm⟩
  · have hlabel : marker.kind.isLabelLike = false := by simp [hkind, BlockKind.isLabelLike]
    rw [← List.append_assoc, ← BlockKind.braces_of_block (options.openBraces _) hlabel]
    refine h.entered (by simp [hkind]) (by simp [hkind]) (fun m hm => h.opening m (hsub m hm)) h.closing ?_
      fun m hm => h.apart m (hsub m hm)
    exact List.forall_mem_append.2 ⟨fun m hm => h.numbered m (List.mem_append_left _ (hsub m hm)),
      fun m hm => h.numbered m (List.mem_append_right _ hm)⟩

/-- A `break` that was queued after all else is written. -/
theorem breaks (h : Stage options walk loops ends chain rows) (marker : Marker) {nextId : Nat}
    (hside : marker.side = .opening) (hdeferred : marker.deferred = false)
    (hposition : marker.position ≤ cursor) (hkind : marker.kind = .switchBreak)
    (hnext : walk.blocks.nextId < nextId) :
    ∃ next,
      Walk.reconcile { walk with
        blocks := { walk.blocks with
          pending := walk.blocks.pending ++ [marker], nextId } } cursor = next.reconcile cursor ∧
      Stage options next loops ends chain
        (rows ++ rowsAt chain.length [marker.text.getD "break;"]) := by
  refine ⟨_, h.reconcile_queued marker [] nextId hside hdeferred hposition (by simp), ?_⟩
  obtain ⟨hfollows, hrows⟩ := h.emitted (e := .broke (marker.text.getD "break;")) rfl
  unfold Walk.enter
  simp only [hkind, List.append_nil]
  refine ⟨h.labels, h.pending, h.chain_eq, hfollows, hrows, h.opening, h.closing,
    fun m hm => Nat.lt_trans (h.numbered m hm) hnext, h.apart⟩

/-- The end of the innermost block that was queued after all else closes the block. -/
theorem closes {top : OpenBlock} (h : Stage options walk loops ends (top :: chain) rows) (e : Marker)
    (hkind : e.kind = top.kind) (hside : e.side = .closing)
    (hid : e.id = top.id) (hposition : e.position ≤ cursor) (hapart : ∀ m ∈ ends, m.id ≠ top.id) :
    ∃ next,
      Walk.reconcile { walk with
        blocks := { walk.blocks with pending := walk.blocks.pending ++ [e] } } cursor =
        next.reconcile cursor ∧
      Stage options next loops ends chain
        (rows ++ rowsAt chain.length (top.kind.braces (options.closeBraces e.text))) := by
  have hnone : ∀ m ∈ walk.blocks.pending, Blocks.isEndOf top.id m = false :=
    h.pending ▸ h.isEndOf hapart
  have htaken := Blocks.takeEnd?_of_last h.chain_eq hnone
    (by simp [Blocks.isEndOf, hid, hside] : Blocks.isEndOf top.id e = true)
    (by simp [Horizon.reaches, hposition] : (Horizon.upTo cursor).reaches e.position = true)
  have hplain : ∀ m ∈ walk.blocks.pending ++ [e], Blocks.isDue (.upTo cursor) false m = false :=
    List.forall_mem_append.2 ⟨h.isDue, by simp [Blocks.isDue_of_closing hside]⟩
  refine ⟨_, Walk.reconcile_end hplain htaken, ?_⟩
  obtain ⟨hfollows, hrows⟩ := h.emitted
    (show (Event.closed e.kind e.id e.text).follow (top :: chain) = some chain by
      simp [Event.follow, hkind, hid])
  have hlines : (Event.closed e.kind e.id e.text).rows options (top :: chain) =
      rowsAt chain.length (top.kind.braces (options.closeBraces e.text)) := by
    simp [Event.rows, Event.texts, hkind, BlockKind.braces, Event.outward, Event.outdent, rowsAt]
  have hblocks : (walk.close e.kind e.id e.text).blocks = { walk.blocks with chain } := by
    rw [hid]
    exact Blocks.leave_innermost h.chain_eq
  show Stage options (walk.close e.kind e.id e.text) loops ends chain _
  refine ⟨h.labels, ?_, ?_, hfollows, hlines ▸ hrows, h.opening, h.closing, ?_, h.apart⟩
  · rw [hblocks]; exact h.pending
  · rw [hblocks]
  · rw [hblocks]; exact h.numbered

/-- The end of the innermost block that was queued last closes the block. -/
theorem closesLast {top : OpenBlock} {e : Marker}
    (h : Stage options walk loops (ends ++ [e]) (top :: chain) rows) (hkind : e.kind = top.kind)
    (hid : e.id = top.id) (hposition : e.position ≤ cursor) (hapart : ∀ m ∈ ends, m.id ≠ top.id) :
    ∃ next, walk.reconcile cursor = next.reconcile cursor ∧
      Stage options next loops ends chain
        (rows ++ rowsAt chain.length (top.kind.braces (options.closeBraces e.text))) := by
  have hside := h.closing e (by simp)
  obtain ⟨next, hnext, hstage⟩ := h.without.closes e hkind hside hid hposition hapart
  refine ⟨next, ?_, hstage⟩
  rw [← hnext]
  dsimp only
  rw [List.append_assoc, ← h.pending]

theorem closesQueued {top : OpenBlock} {e : Marker}
    (h : Stage options walk loops (ends ++ [e]) (top :: chain) rows)
    (hkind : e.kind = top.kind) (hlabel : top.kind.isLabelLike = false) (hid : e.id = top.id)
    (hposition : e.position ≤ cursor) (hapart : ∀ m ∈ ends, m.id ≠ top.id) :
    ∃ next, walk.reconcile cursor = next.reconcile cursor ∧
      Stage options next loops ends chain
        (rows ++ rowsAt chain.length (options.closeBraces e.text)) := by
  rw [← BlockKind.braces_of_block (options.closeBraces _) hlabel]
  exact h.closesLast hkind hid hposition hapart

/-- An arm of a `switch` closes without a line. -/
theorem closesArm {top : OpenBlock} {e : Marker}
    (h : Stage options walk loops (ends ++ [e]) (top :: chain) rows)
    (hkind : e.kind = top.kind) (hlabel : top.kind.isLabelLike = true) (hid : e.id = top.id)
    (hposition : e.position ≤ cursor) (hapart : ∀ m ∈ ends, m.id ≠ top.id) :
    ∃ next, walk.reconcile cursor = next.reconcile cursor ∧
      Stage options next loops ends chain rows := by
  obtain ⟨next, hnext, hstage⟩ := h.closesLast hkind hid hposition hapart
  rw [BlockKind.braces_of_arm _ hlabel] at hstage
  exact ⟨next, hnext, by simpa [rowsAt] using hstage⟩

/-- The `else` that was queued after all else takes the place of its `if`. -/
theorem takesElse {top : OpenBlock} {e : Marker} {nextId : Nat}
    (h : Stage options walk loops (ends ++ [e]) (top :: chain) rows) (marker : Marker)
    (extra : List Marker) (htop : top.kind = .ifBlock)
    (hid : e.id = top.id) (hapart : ∀ m ∈ ends, m.id ≠ top.id) (hside : marker.side = .opening)
    (hdeferred : marker.deferred = false) (hposition : marker.position ≤ cursor)
    (hkind : marker.kind = .elseBlock)
    (hextra : ∀ m ∈ extra, m.side = .closing ∧ m.id = walk.blocks.nextId)
    (hnext : walk.blocks.nextId < nextId) :
    ∃ next,
      Walk.reconcile { walk with
        blocks := { walk.blocks with
          pending := walk.blocks.pending ++ marker :: extra, nextId } } cursor =
        next.reconcile cursor ∧
      Stage options next loops (ends ++ extra) (marker.block :: chain)
        (rows ++ rowsAt chain.length options.elseBraces) := by
  obtain ⟨hclosing, hnumbered, hfresh⟩ := h.without.queueable hextra hnext
  refine ⟨_, h.reconcile_queued marker extra nextId hside hdeferred hposition fun m hm =>
    (hextra m hm).1, ?_⟩
  obtain ⟨hfollows, hrows⟩ := h.emitted
    (show (Event.alternative marker.block).follow (top :: chain) = some (marker.block :: chain) by
      simp [Event.follow, htop, Marker.block, hkind])
  have hlines : (Event.alternative marker.block).rows options (top :: chain) =
      rowsAt chain.length options.elseBraces := by
    simp [Event.rows, Event.texts, Event.outward, Event.outdent, rowsAt]
  -- The end of the `if` is the only one that leaves the queue.
  have herase : (walk.blocks.pending ++ extra).eraseP (Blocks.isEndOf top.id) =
      loops ++ (ends ++ extra) := by
    have hnone : ∀ m ∈ loops ++ ends, ¬ Blocks.isEndOf top.id m = true := fun m hm => by
      simp [h.isEndOf hapart m hm]
    have he : Blocks.isEndOf top.id e = true := by
      simp [Blocks.isEndOf, hid, h.closing e (by simp)]
    rw [h.pending, ← List.append_assoc loops ends [e], List.append_assoc (loops ++ ends),
      List.eraseP_append_right _ hnone, List.singleton_append, List.eraseP_cons_of_pos he,
      List.append_assoc]
  have hdrop := Walk.dropIf_of_if
    { walk with blocks := { walk.blocks with pending := walk.blocks.pending ++ extra, nextId } }
    h.chain_eq htop
  unfold Walk.enter
  simp only [hkind]
  rw [hdrop]
  exact ⟨h.labels, herase, rfl, hfollows, hlines ▸ hrows, h.opening, hclosing, hnumbered, hfresh⟩

end Stage

end ScriptBytecode
