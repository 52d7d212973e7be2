/-
Module: ScriptBytecode.Proofs.Walk.MarkerRuns
Purpose: Markers over all runs of operations on blocks. Whatever is done with new blocks, and in whatever order, each
  marker that was queued has been given back once or is still queued once, begins are numbered in the order in which
  they were queued, and the begins that are due are taken in the order that the walk relies on. Main statement: this
  holds of every run.
Main exports: BlockOp, Blocks.newMarkers, Blocks.step, Blocks.accounts, Journal, Journal.run, Journal.Complete,
  Journal.run_complete, MarkerRun, markers_conserved
-/
import ScriptBytecode.Proofs.Walk.Numbering

namespace ScriptBytecode

/-- What can be done with blocks. -/
inductive BlockOp where
  | queueBegin (kind : BlockKind) (position creator blockEnd : Nat) (text : Option String) (deferred : Bool)
  | queueBlock (kind : BlockKind) (position creator stop : Nat) (text : Option String)
  | queueEnd (kind : BlockKind) (id position : Nat) (text : Option String)
  | takeBegins (horizon : Horizon) (deferred : Bool)
  | takeEnd (horizon : Horizon)
  | cancelEnd (id : Nat)
  | enter (marker : Marker)
  | leave (id : Nat)
  | drain
deriving Repr, Inhabited, DecidableEq

namespace Blocks

/-- The markers that an operation queues. -/
def newMarkers (blocks : Blocks) : BlockOp → List Marker
  | .queueBegin kind position creator blockEnd text deferred =>
    [blocks.newBegin kind position creator blockEnd text deferred]
  | .queueBlock kind position creator stop text =>
    [blocks.newBegin kind position creator stop text false,
      (blocks.queueBegin kind position creator stop text false).2.newEnd kind blocks.nextId stop none]
  | .queueEnd kind id position text => [blocks.newEnd kind id position text]
  | .takeBegins .. | .takeEnd .. | .cancelEnd .. | .enter .. | .leave .. | .drain => []

/-- The markers that an operation gives back, and the blocks after it. -/
def step (blocks : Blocks) : BlockOp → List Marker × Blocks
  | .queueBegin kind position creator blockEnd text deferred =>
    ([], (blocks.queueBegin kind position creator blockEnd text deferred).2)
  | .queueBlock kind position creator stop text => ([], (blocks.queueBlock kind position creator stop text).2)
  | .queueEnd kind id position text => ([], blocks.queueEnd kind id position text)
  | .takeBegins horizon deferred => blocks.takeBegins horizon deferred
  | .takeEnd horizon =>
    match blocks.takeEnd? horizon with
    | some (marker, rest) => ([marker], rest)
    | none => ([], blocks)
  | .cancelEnd id => ((blocks.cancelEnd id).1.toList, (blocks.cancelEnd id).2)
  | .enter marker => ([], blocks.enter marker)
  | .leave id => ([], (blocks.leave id).2)
  | .drain => blocks.drain

/-!
### One operation
-/

/-- What is found in the queue is what leaves it. -/
theorem find?_eraseP_perm (pending : List Marker) (p : Marker → Bool) :
    ((pending.find? p).toList ++ pending.eraseP p).Perm pending := by
  induction pending with
  | nil => exact List.Perm.nil
  | cons m rest ih =>
      cases hm : p m with
      | true => simp [hm]
      | false =>
          rw [List.find?_cons_of_neg (by simp [hm]), List.eraseP_cons_of_neg (by simp [hm])]
          exact List.perm_middle.trans (ih.cons m)

/-- An end of the innermost block that is due. -/
def isReadyEnd (blocks : Blocks) (horizon : Horizon) (m : Marker) : Bool :=
  blocks.innermost?.any (isEndOf ·.id m) && horizon.reaches m.position

theorem takeEnd?_eq_map (blocks : Blocks) (horizon : Horizon) :
    blocks.takeEnd? horizon = (blocks.pending.find? (blocks.isReadyEnd horizon)).map fun marker =>
      (marker, { blocks with pending := blocks.pending.eraseP (blocks.isReadyEnd horizon) }) := by
  unfold isReadyEnd takeEnd?
  cases blocks.innermost? with
  | none =>
      have hidle : blocks.pending.find? (fun _ => false) = none := by simp
      simp [hidle]
  | some top => exact Option.map_eq_bind.symm

theorem step_takeEnd (blocks : Blocks) (horizon : Horizon) :
    blocks.step (.takeEnd horizon) =
      ((blocks.pending.find? (blocks.isReadyEnd horizon)).toList,
        { blocks with pending := blocks.pending.eraseP (blocks.isReadyEnd horizon) }) := by
  rw [step, takeEnd?_eq_map]
  cases hfind : blocks.pending.find? (blocks.isReadyEnd horizon) with
  | none =>
      rw [List.eraseP_of_forall_not (List.find?_eq_none.1 hfind)]
      rfl
  | some marker => rfl

theorem leave_eq (blocks : Blocks) (id : Nat) :
    (blocks.leave id).2 = { blocks with chain := (blocks.leave id).2.chain } := by
  unfold leave
  split
  · rfl
  · rfl

/-- What an operation queues and gives back accounts for what becomes of the queue. -/
structure Accounts (blocks : Blocks) (op : BlockOp) : Prop where
  /-- What leaves the queue is given back. -/
  perm : ((blocks.step op).1 ++ (blocks.step op).2.pending).Perm (blocks.pending ++ blocks.newMarkers op)
  /-- What stays in the queue stays in its order, and new markers come last. -/
  sublist : (blocks.step op).2.pending.Sublist (blocks.pending ++ blocks.newMarkers op)
  /-- The numbers that have been given out go on with those of the new begins. -/
  numbers : List.range (blocks.step op).2.nextId =
    List.range blocks.nextId ++ ((blocks.newMarkers op).filter (·.side == .opening)).map (·.id)

/-- An operation that only queues. -/
theorem Accounts.of_queueing {blocks : Blocks} {op : BlockOp} (hnothing : (blocks.step op).1 = [])
    (hpending : (blocks.step op).2.pending = blocks.pending ++ blocks.newMarkers op)
    (hnumbers : List.range (blocks.step op).2.nextId =
      List.range blocks.nextId ++ ((blocks.newMarkers op).filter (·.side == .opening)).map (·.id)) :
    blocks.Accounts op where
  perm := by rw [hnothing, hpending, List.nil_append]
  sublist := by rw [hpending]
  numbers := hnumbers

/-- An operation that queues nothing. -/
theorem Accounts.of_taking {blocks : Blocks} {op : BlockOp} {taken rest : List Marker} {chain : List OpenBlock}
    (hnew : blocks.newMarkers op = []) (hstep : blocks.step op = (taken, { blocks with pending := rest, chain }))
    (hsublist : rest.Sublist blocks.pending) (hperm : (taken ++ rest).Perm blocks.pending) : blocks.Accounts op where
  perm := by rwa [hstep, hnew, List.append_nil]
  sublist := by rwa [hstep, hnew, List.append_nil]
  numbers := by rw [hstep, hnew, List.filter_nil, List.map_nil, List.append_nil]

theorem accounts (blocks : Blocks) (op : BlockOp) : blocks.Accounts op := by
  cases op with
  | queueBegin kind position creator blockEnd text deferred => exact .of_queueing rfl rfl List.range_succ
  | queueBlock kind position creator stop text =>
      exact .of_queueing rfl (List.append_assoc ..) List.range_succ
  | queueEnd kind id position text => exact .of_queueing rfl rfl (List.append_nil _).symm
  | takeBegins horizon deferred =>
      have hstep : blocks.step (.takeBegins horizon deferred) = ((blocks.takeBegins horizon deferred).1,
          { blocks with pending := blocks.pending.filter fun m => !isDue horizon deferred m }) :=
        Prod.ext rfl (takeBegins_rest ..)
      exact .of_taking rfl hstep List.filter_sublist
        (((takeBegins_perm blocks horizon deferred).append_right _).trans (List.filter_append_perm _ _))
  | takeEnd horizon => exact .of_taking rfl (step_takeEnd ..) List.eraseP_sublist (find?_eraseP_perm ..)
  | cancelEnd id => exact .of_taking rfl rfl List.eraseP_sublist (find?_eraseP_perm ..)
  | enter marker => exact .of_taking rfl rfl (List.Sublist.refl _) (List.Perm.refl _)
  | leave id => exact .of_taking rfl (Prod.ext rfl (leave_eq ..)) (List.Sublist.refl _) (List.Perm.refl _)
  | drain =>
      have hperm : (blocks.drain.1 ++ []).Perm blocks.pending := by
        rw [List.append_nil, drain, List.partition_eq_filter_filter]
        exact List.filter_append_perm _ _
      exact .of_taking rfl (Prod.ext rfl (drain_rest ..)) (List.nil_sublist _) hperm

/-!
### The begins that are due
-/

/-- Deferred begins that agree in position and end are taken in the order in which they wait. -/
theorem takeBegins_ties (blocks : Blocks) (horizon : Horizon) (position blockEnd : Nat) :
    (blocks.takeBegins horizon true).1.filter (fun m => m.position == position && m.blockEnd == blockEnd) =
      (blocks.pending.filter (isDue horizon true)).filter
        fun m => m.position == position && m.blockEnd == blockEnd := by
  rw [takeBegins_deferred]
  set due := blocks.pending.filter (isDue horizon true)
  set tied : Marker → Bool := fun m => m.position == position && m.blockEnd == blockEnd with htied
  -- Tied begins are sorted as they stand, so sorting keeps their order among the others.
  have hsorted : (due.filter tied).Pairwise fun a b => beginsNoLater a b = true := by
    refine List.pairwise_of_forall_mem_list fun a ha b hb => ?_
    have ha := (List.mem_filter.1 ha).2
    have hb := (List.mem_filter.1 hb).2
    simp only [htied, Bool.and_eq_true, beq_iff_eq] at ha hb
    rw [beginsNoLater_iff]
    omega
  have hkept := List.sublist_mergeSort beginsNoLater_trans beginsNoLater_total hsorted List.filter_sublist
  have hsublist : (due.filter tied).Sublist ((due.mergeSort beginsNoLater).filter tied) := by
    simpa using hkept.filter tied
  exact (hsublist.eq_of_length ((List.mergeSort_perm due _).filter tied).length_eq.symm).symm

end Blocks

/-!
### Runs
-/

/-- The markers that a run has queued and that it has been given back, in the order of the run, and the blocks that it
    leaves. -/
structure Journal where
  queued : List Marker := []
  taken : List Marker := []
  blocks : Blocks := {}

namespace Journal

/-- Does one more thing. -/
def step (journal : Journal) (op : BlockOp) : Journal where
  queued := journal.queued ++ journal.blocks.newMarkers op
  taken := journal.taken ++ (journal.blocks.step op).1
  blocks := (journal.blocks.step op).2

/-- Does one thing after the other with new blocks. -/
def run (ops : List BlockOp) : Journal := ops.foldl step {}

/-- The begins that were queued. -/
def begins (journal : Journal) : List Marker := journal.queued.filter (·.side == .opening)

/-- The journal accounts for every marker. -/
structure Complete (journal : Journal) : Prop where
  conserved : journal.queued.Perm (journal.taken ++ journal.blocks.pending)
  ordered : journal.blocks.pending.Sublist journal.queued
  numbered : journal.begins.map (·.id) = List.range journal.blocks.nextId

open scoped List in
theorem Complete.step {journal : Journal} (h : journal.Complete) (op : BlockOp) : (journal.step op).Complete := by
  have haccounts := journal.blocks.accounts op
  constructor
  · calc journal.queued ++ journal.blocks.newMarkers op
      _ ~ (journal.taken ++ journal.blocks.pending) ++ journal.blocks.newMarkers op := h.conserved.append_right _
      _ = journal.taken ++ (journal.blocks.pending ++ journal.blocks.newMarkers op) := List.append_assoc ..
      _ ~ journal.taken ++ ((journal.blocks.step op).1 ++ (journal.blocks.step op).2.pending) :=
          haccounts.perm.symm.append_left _
      _ = (journal.step op).taken ++ (journal.step op).blocks.pending := (List.append_assoc ..).symm
  · exact haccounts.sublist.trans (h.ordered.append_right _)
  · calc (journal.step op).begins.map (·.id)
      _ = journal.begins.map (·.id) ++ ((journal.blocks.newMarkers op).filter (·.side == .opening)).map (·.id) := by
          rw [begins, Journal.step, List.filter_append, List.map_append, begins]
      _ = List.range (journal.blocks.step op).2.nextId := by
          rw [h.numbered, haccounts.numbers]

/-- Every run accounts for its markers. -/
theorem run_complete (ops : List BlockOp) : (run ops).Complete :=
  List.foldlRecOn ops step ⟨List.Perm.nil, List.Sublist.refl _, rfl⟩ fun _ h op _ => h.step op

/-- Begins wait in the order in which they were queued. -/
theorem Complete.sublist_begins {journal : Journal} (h : journal.Complete) {markers : List Marker}
    (hwaiting : markers.Sublist journal.blocks.pending) (hside : ∀ m ∈ markers, m.side = .opening) :
    markers.Sublist journal.begins := by
  have hbegins : markers.filter (·.side == .opening) = markers := List.filter_eq_self.2 (by simpa using hside)
  rw [← hbegins]
  exact (hwaiting.trans h.ordered).filter _

end Journal

open Journal in
/-- What a run of operations on new blocks does with their markers. -/
structure MarkerRun (ops : List BlockOp) : Prop where
  /-- The markers that were queued are those that were given back and those that still wait, each as often. -/
  conserved : (run ops).queued.Perm ((run ops).taken ++ (run ops).blocks.pending)
  /-- No two begins have one number. -/
  distinct : ((run ops).begins.map (·.id)).Nodup
  /-- Markers wait in the order in which they were queued. -/
  ordered : (run ops).blocks.pending.Sublist (run ops).queued
  /-- The begins that are taken are those that are due, deferred or not as asked for, each once. -/
  due : ∀ horizon deferred, ((run ops).blocks.takeBegins horizon deferred).1.Perm
    ((run ops).blocks.pending.filter (Blocks.isDue horizon deferred))
  /-- All others go on waiting, in their order. -/
  others : ∀ horizon deferred, ((run ops).blocks.takeBegins horizon deferred).2.pending =
    (run ops).blocks.pending.filter fun m => !Blocks.isDue horizon deferred m
  /-- Begins that are not deferred are taken in the order in which they were queued. -/
  plain : ∀ horizon, ((run ops).blocks.takeBegins horizon false).1.Sublist (run ops).begins
  /-- Deferred begins are taken by increasing position, and at one position by decreasing end of their blocks. -/
  sorted : ∀ horizon, ((run ops).blocks.takeBegins horizon true).1.Pairwise fun a b =>
    a.position < b.position ∨ a.position = b.position ∧ b.blockEnd ≤ a.blockEnd
  /-- Where position and end agree, they are taken in the order in which they were queued. -/
  ties : ∀ horizon position blockEnd,
    (((run ops).blocks.takeBegins horizon true).1.filter fun m =>
      m.position == position && m.blockEnd == blockEnd).Sublist (run ops).begins

/-- No run of operations on new blocks loses a marker or gives one back twice, and every run takes the begins that are
    due in their order. -/
theorem markers_conserved (ops : List BlockOp) : MarkerRun ops := by
  have hcomplete := Journal.run_complete ops
  have hopening : ∀ {horizon deferred m}, m ∈ (Journal.run ops).blocks.pending.filter (Blocks.isDue horizon deferred) →
      m.side = .opening :=
    fun hm => (Blocks.isDue_iff.1 (List.mem_filter.1 hm).2).1
  constructor
  · exact hcomplete.conserved
  · rw [hcomplete.numbered]
    exact List.nodup_range
  · exact hcomplete.ordered
  · exact Blocks.takeBegins_perm _
  · intro horizon deferred
    rw [Blocks.takeBegins_rest]
  · intro horizon
    rw [Blocks.takeBegins_plain]
    exact hcomplete.sublist_begins List.filter_sublist fun m => hopening
  · intro horizon
    rw [Blocks.takeBegins_deferred]
    exact (List.pairwise_mergeSort Blocks.beginsNoLater_trans Blocks.beginsNoLater_total _).imp
      Blocks.beginsNoLater_iff.1
  · intro horizon position blockEnd
    rw [Blocks.takeBegins_ties]
    exact hcomplete.sublist_begins (List.filter_sublist.trans List.filter_sublist) fun m hm =>
      hopening (List.mem_of_mem_filter hm)

-- Three loops begin at one position. The two that end last begin first, the one that was queued earlier before the
-- other.
example :
    let loops : List BlockOp :=
      [.queueBegin .loop 0 10 10 none true, .queueBegin .loop 0 20 20 none true, .queueBegin .loop 0 30 20 none true]
    ((Journal.run loops).blocks.takeBegins (.upTo 0) true).1.map (·.id) = [1, 2, 0] := by
  cbv

end ScriptBytecode
