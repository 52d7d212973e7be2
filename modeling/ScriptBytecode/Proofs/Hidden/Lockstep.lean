/-
Module: ScriptBytecode.Proofs.Hidden.Lockstep
Purpose: The walk over code with hidden instructions and the walk over what is left of it, step by step. At a shown
  instruction both walks take a step. At a hidden one only the first does: markers that are due there take effect and
  a label may be written, all of which the other walk has done already or does at its next step. A stretch of hidden
  instructions holds one label at most, and behind a label or the begin of a `do` loop no block ends in it, so nothing
  happens in another order.
Main exports: Walk.Ready, Body.Fresh, Setting.OnlyLabel, Setting.Calm, Walk.lingering, Walk.Ready.step_hidden,
  Walk.InStep, Walk.InStep.hidden, Walk.InStep.shown, Setting.inStep_walkTo, Setting.alike_walk, Setting.alike_events
-/
import Mathlib.Data.List.Sort
import ScriptBytecode.Proofs.Hidden.Likeness
import ScriptBytecode.Proofs.Walk.Containment

namespace ScriptBytecode

namespace Body

variable {body : Body} {start p : Nat}

/-- No instruction lies across the position, and no position that falls together with it lies before it. -/
structure Fresh (body : Body) (start : Nat) : Prop where
  edge : body.Edge start
  first : ∀ p, body.Edge p → body.compact p = body.compact start → start ≤ p

/-- The end of a shown instruction is fresh. -/
theorem fresh_endPosition (ht : body.IsTiled) {i : Instruction} (hi : i ∈ body.instructions.toList)
    (hshown : i.isShown = true) : body.Fresh i.endPosition :=
  ⟨(edges_of_mem ht hi).2, fun _ hp hsame => (hp.endPosition_le_iff ht hi hshown).1 (Nat.le_of_eq hsame.symm)⟩

/-- What lies between two positions that fall together falls together with them. -/
theorem compact_eq_of_le {later : Nat} (hfirst : start ≤ p) (hlast : p ≤ later)
    (hsame : body.compact start = body.compact later) : body.compact p = body.compact start := by
  have hlow := body.compact_mono hfirst
  have hhigh := body.compact_mono hlast
  omega

end Body

/-- A position from the start on. If there is a label before the shown instruction behind the start, it is there. -/
structure Setting.OnlyLabel (setting : Setting) (start stop : Nat) : Prop where
  le : start ≤ stop
  edge : setting.body.Edge stop
  /-- The end of the code stands for no label. -/
  place : setting.Place stop ∨ stop = setting.body.consumed
  only : ∀ p, setting.Place p → setting.body.compact p = setting.body.compact start → p = stop
  loops : ∀ d ∈ setting.body.loopStarts, setting.body.compact d = setting.body.compact start → d ≤ stop

theorem Body.Fresh.exists_onlyLabel {setting : Setting} {body' : Body} {start : Nat} (h : setting.ThinsTo body')
    (hfresh : setting.body.Fresh start) (hle : start ≤ setting.body.consumed) :
    ∃ stop, setting.OnlyLabel start stop := by
  have ht := h.regular.tiled
  by_cases hsome : ∃ p, setting.Place p ∧ setting.body.compact p = setting.body.compact start
  · obtain ⟨stop, hplace, hsame⟩ := hsome
    have hedge := (h.landed.border ht hplace.1).edge
    refine ⟨stop, hfresh.first stop hedge hsame, hedge, Or.inl hplace, fun p hp hp' => ?_, fun d hd hd' => ?_⟩
    · exact h.tolerant.placesApart hp hplace (hp'.trans hsame.symm)
    · exact (h.tolerant.labels stop hplace.2).1 d hd (hd'.trans hsame.symm)
  · refine ⟨setting.body.consumed, hle, Body.edge_of_consumed_le ht (Nat.le_refl _), Or.inr rfl, fun p hp hp' => ?_,
      fun d hd _ => ?_⟩
    · exact absurd ⟨p, hp, hp'⟩ hsome
    · -- A `do` loop begins before its `until`.
      obtain ⟨i, hi, huntil, htarget⟩ := Body.mem_loopStarts.1 hd
      have hback := Walk.le_of_isDoUntil huntil htarget
      have hbounds := Consecutive.bounds ht hi
      omega

/-- A place at which the order of what takes effect shows: a label, or the begin of a `do` loop. -/
def Setting.Turn (setting : Setting) (q : Nat) : Prop := setting.Place q ∨ q ∈ setting.body.loopStarts

theorem Setting.Turn.edge {setting : Setting} {body' : Body} {q : Nat} (h : setting.ThinsTo body')
    (hq : setting.Turn q) : setting.body.Edge q := by
  rcases hq with hplace | hloop
  · exact (h.landed.border h.regular.tiled hplace.1).edge
  · obtain ⟨i, hi, -, htarget⟩ := Body.mem_loopStarts.1 hloop
    exact (h.landed.border_of_target h.regular.tiled hi htarget).edge

/-- Once a turn has been passed, no block ends before the next shown instruction. -/
def Setting.Calm (setting : Setting) (start now : Nat) (pending : List Marker) : Prop :=
  ∀ q, setting.Turn q → start ≤ q → q ≤ now → ∀ m ∈ pending, m.side = .closing →
    setting.body.compact m.position ≠ setting.body.compact start

namespace Walk

/-- A walk whose markers, those of the instruction before the cursor among them, are still to take effect. -/
structure Ready (body : Body) (cursor : Nat) (walk : Walk) : Prop where
  poised : walk.Poised cursor
  balanced : walk.blocks.Balanced (walk.blocks.openings.filter (!·.deferred)) cursor
  grounded : walk.blocks.Grounded body cursor

/-- The kind of the last instruction has no say in the markers. -/
theorem Ready.after {body : Body} {cursor : Nat} {walk : Walk} (h : walk.Ready body cursor) (previous : Option Opcode) :
    Ready body cursor { walk with previous } where
  poised := ⟨⟨h.poised.follows, h.poised.arms, h.poised.numbered⟩, h.poised.deferred, h.poised.plain⟩
  balanced := h.balanced
  grounded := h.grounded

/-- The walk once the markers up to a position have taken effect, with the label of the stop if it lies before. -/
def lingering (walk : Walk) (stop now : Nat) : Walk :=
  if stop < now then (walk.reconcile now).writeLabel stop else walk.reconcile now

theorem reconcile_labels (walk : Walk) (cursor : Nat) : (walk.reconcile cursor).labels = walk.labels := by
  obtain ⟨next, new, -, heq⟩ := framed_reconcile cursor walk.blocks
  exact congrArg (·.labels) (heq walk rfl)

/-- A label that waits after another was written waited before. -/
theorem pending_of_writeLabel {walk : Walk} {position p : Nat} {label : Label}
    (h : (walk.writeLabel position).labels.pending[p]? = some label) : walk.labels.pending[p]? = some label := by
  cases hlabel : walk.labels.pending[position]? with
  | none => rwa [writeLabel_of_none hlabel] at h
  | some written =>
      rw [writeLabel_of_some hlabel] at h
      change (walk.labels.write position written).pending[p]? = some label at h
      rw [LabelTable.write_pending] at h
      split at h
      · cases h
      · exact h

theorem pending_writeLabel_eq_none {walk : Walk} {p : Nat} (h : walk.labels.pending[p]? = none) (position : Nat) :
    (walk.writeLabel position).labels.pending[p]? = none := by
  rw [Option.eq_none_iff_forall_ne_some]
  intro label hlabel
  rw [pending_of_writeLabel hlabel] at h
  cases h

/-- Labels have no say in which markers take effect. -/
theorem reconcile_writeLabel_of_quiet {walk : Walk} {cursor : Nat} (h : ∀ m ∈ walk.blocks.pending, cursor < m.position)
    (position : Nat) : (walk.writeLabel position).reconcile cursor = walk.writeLabel position := by
  apply reconcile_of_quiet
  rw [writeLabel_blocks]
  exact h

namespace Ready

theorem upToDate {body : Body} {walk : Walk} {start later : Nat} (hready : walk.Ready body start)
    (hle : start ≤ later) : (walk.reconcile later).UpToDate later :=
  (hready.poised.mono hle).upToDate_reconcile (hready.balanced.mono hle)

variable {setting : Setting} {body' : Body} {walk : Walk} {start stop now later : Nat} (h : setting.ThinsTo body')
  (hready : walk.Ready setting.body start) (honly : setting.OnlyLabel start stop)
  (hcalm : setting.Calm start now (walk.reconcile now).blocks.pending) (hstart : start ≤ now) (hle : now ≤ later)
  (hsame : setting.body.compact start = setting.body.compact later)

/-- A `do` loop that is due begins where an `until` leads. -/
theorem mem_loopStarts (hready : walk.Ready setting.body start) {m : Marker} (hm : m ∈ walk.blocks.pending)
    (hside : m.side = .opening) (hdeferred : m.deferred = true) :
    start ≤ m.position ∧ m.position ∈ setting.body.loopStarts := by
  obtain ⟨hahead, i, hi, huntil, htarget, -⟩ :=
    hready.grounded.loops m (List.mem_filter.2 ⟨hm, by simp [hside]⟩) hdeferred
  exact ⟨hahead, Body.mem_loopStarts.2 ⟨i, hi, huntil, htarget⟩⟩

include hready hcalm hstart hle hsame

/-- While hidden instructions are passed, markers may take effect in two goes. -/
theorem reconcile_reconcile : (walk.reconcile now).reconcile later = walk.reconcile later := by
  apply (hready.poised.mono hstart).reconcile_reconcile (hready.balanced.mono hstart) hle
  by_cases hloops : ∀ m ∈ walk.blocks.pending, Blocks.isDue (.upTo now) true m = false
  · exact Or.inl hloops
  · -- A `do` loop has begun, so no block ends any more.
    right
    obtain ⟨loop, hloop, hdue⟩ : ∃ m ∈ walk.blocks.pending, Blocks.isDue (.upTo now) true m = true := by
      simpa using hloops
    obtain ⟨hside, hdeferred, hreaches⟩ := Blocks.isDue_iff.1 hdue
    obtain ⟨hahead, hbegins⟩ := hready.mem_loopStarts hloop hside hdeferred
    intro m hm hclosing
    have hlate := (hready.upToDate hstart).ahead m hm
    by_contra hend
    apply hcalm loop.position (Or.inr hbegins) hahead (by simpa [Horizon.reaches] using hreaches) m hm hclosing
    exact Body.compact_eq_of_le (by omega) (Nat.le_of_not_lt hend) hsame

include honly

omit hle in
/-- Behind the label nothing more is due while hidden instructions are passed. -/
theorem quiet (hpassed : stop ≤ now) (hinside : now < setting.body.consumed) :
    ∀ m ∈ (walk.reconcile now).blocks.pending, later < m.position := by
  have huptodate := hready.upToDate hstart
  have hplace : setting.Place stop := honly.place.resolve_right (by omega)
  intro m hm
  have hahead := huptodate.ahead m hm
  by_contra hdue
  have hfalls : setting.body.compact m.position = setting.body.compact start :=
    Body.compact_eq_of_le (by omega) (Nat.le_of_not_lt hdue) hsame
  cases hside : m.side with
  | closing => exact hcalm stop (Or.inl hplace) honly.le hpassed m hm hside hfalls
  | opening =>
      have hdeferred := (huptodate.begins m (List.mem_filter.2 ⟨hm, by simp [hside]⟩)).1
      have hbegins := (hready.mem_loopStarts (mem_pending_reconcile hm) hside hdeferred).2
      have hbefore := honly.loops _ hbegins hfalls
      omega

omit hcalm hstart hle hsame in
/-- A hidden instruction adds nothing but the label, and what was due anyway. -/
theorem step_hidden {i : Instruction} (index : Nat) (ht : setting.body.IsTiled)
    (hcalm : setting.Calm start i.position (walk.reconcile i.position).blocks.pending)
    (hi : i ∈ setting.body.instructions.toList) (hhidden : i.isShown = false) (hstart : start ≤ i.position)
    (hsame : setting.body.compact start = setting.body.compact i.position)
    (hlabels : ∀ p, walk.labels.pending[p]? ≠ none → setting.Place p) :
    (walk.lingering stop i.position).step setting i index = walk.lingering stop i.endPosition := by
  have hle : i.position ≤ i.endPosition := Nat.le_add_right _ _
  have hbounds := Consecutive.bounds ht hi
  have hend : setting.body.compact start = setting.body.compact i.endPosition :=
    hsame.trans (Body.compact_endPosition_of_hidden ht hi hhidden).symm
  have hstep : ∀ walk : Walk, walk.step setting i index = (walk.writeLabel i.position).reconcile i.endPosition := by
    intro walk
    have hopcode : i.opcode.isHidden = true := by simpa [Instruction.isShown] using hhidden
    simp [step, hopcode]
  have hunlabelled : i.position ≠ stop → (walk.reconcile i.position).labels.pending[i.position]? = none := by
    intro hne
    rw [reconcile_labels]
    by_contra hsome
    exact hne (honly.only _ (hlabels _ hsome) hsame.symm)
  have htwice := hready.reconcile_reconcile hcalm hstart hle hend
  rw [hstep, lingering, lingering]
  rcases Nat.lt_or_ge i.position stop with hahead | hpassed
  · -- The instruction ends at the label or before it.
    have hedge : i.endPosition ≤ stop := by
      rcases honly.edge i hi with hbefore | hafter
      · omega
      · exact hafter
    rw [if_neg (by omega), if_neg (by omega), writeLabel_of_none (hunlabelled (Nat.ne_of_lt hahead)), htwice]
  · have hquiet := hready.quiet honly hcalm hstart hend hpassed (by omega)
    rw [reconcile_of_quiet hquiet] at htwice
    rw [if_pos (by omega : stop < i.endPosition), ← htwice]
    rcases Nat.eq_or_lt_of_le hpassed with hhere | hbehind
    · rw [if_neg (by omega), ← hhere, reconcile_writeLabel_of_quiet (hhere ▸ hquiet)]
    · -- The label is written already, and there is no other.
      have hnone := pending_writeLabel_eq_none (hunlabelled (Nat.ne_of_gt hbehind)) stop
      rw [if_pos hbehind, writeLabel_of_none hnone, reconcile_writeLabel_of_quiet hquiet]

omit honly hcalm hstart hle

include h

/-- Where order is kept both ways, the same markers are due in both walks, and `do` loops begin in the same order. -/
theorem steady (hdue : ∀ p, setting.body.Edge p → (setting.body.compact p ≤ setting.body.compact later ↔ p ≤ later)) :
    Blocks.Steady setting.body.compact (.upTo later) (.upTo (setting.body.compact start)) walk.blocks.pending where
  due m hm := by
    simp only [Horizon.reaches, hsame, hdue _ (hready.grounded.places m hm).edge]
  order a ha b hb := by
    have ht := h.regular.tiled
    have hloop : ∀ m ∈ walk.blocks.pending.filter (Blocks.isDue (.upTo later) true),
        setting.body.compact m.position = setting.body.compact start ∧ ∃ i ∈ setting.body.instructions.toList,
          i.isDoUntil = true ∧ i.isShown = true ∧ i.jumpTarget? = some m.position ∧ m.blockEnd = i.endPosition := by
      intro m hm
      obtain ⟨hmem, hm⟩ := List.mem_filter.1 hm
      obtain ⟨hside, hdeferred, hreaches⟩ := Blocks.isDue_iff.1 hm
      obtain ⟨hahead, i, hi, huntil, htarget, -, hend⟩ :=
        hready.grounded.loops m (List.mem_filter.2 ⟨hmem, by simp [hside]⟩) hdeferred
      have hopcode := h.regular.opcode_of_isDoUntil hi huntil
      refine ⟨Body.compact_eq_of_le hahead (by simpa [Horizon.reaches] using hreaches) hsame, i, hi, huntil, ?_,
        htarget, hend⟩
      simp [Instruction.isShown, hopcode, Opcode.isHidden]
    obtain ⟨hfallsA, i, hi, huntilA, -, htargetA, hendA⟩ := hloop a ha
    obtain ⟨hfallsB, j, hj, huntilB, hjshown, htargetB, hendB⟩ := hloop b hb
    have hends := (Body.edges_of_mem ht hi).2.endPosition_le_iff ht hj hjshown
    have hfalls := hfallsA.trans hfallsB.symm
    rw [Bool.eq_iff_iff, Blocks.beginsNoLater_iff, Blocks.beginsNoLater_iff]
    simp only [Marker.relocate, hfalls, Nat.lt_irrefl, false_or, true_and, hendA, hendB, hends]
    -- The one that begins first ends last, and no two end together.
    rcases Nat.lt_trichotomy a.position b.position with hlt | heq | hgt
    · have hlast := h.tolerant.begins i hi j hj huntilA huntilB _ htargetA _ htargetB hlt hfalls
      exact ⟨fun _ => Or.inl hlt, fun _ => hlast⟩
    · simp [heq]
    · have hlast := h.tolerant.begins j hj i hi huntilB huntilA _ htargetB _ htargetA hgt hfalls.symm
      constructor
      · intro hend
        obtain rfl := ht.eq_of_endPosition hi hj (Nat.le_antisymm hlast hend)
        have hsame : a.position = b.position := Option.some.inj (htargetA.symm.trans htargetB)
        omega
      · omega

end Ready

/-!
### Shown instructions
-/

theorem utter_of_shown (setting : Setting) (walk : Walk) {i : Instruction} (hshown : i.isShown = true) (index : Nat) :
    walk.utter setting i index =
      { if setting.suppressImplicitReturn && setting.body.isImplicitReturn index then walk.writeLabel i.position
        else (walk.writeLabel i.position).write setting index i with previous := some i.opcode } := by
  have hopcode : i.opcode.isHidden = false := by simpa [Instruction.isShown] using hshown
  simp [utter, hopcode]

section

variable {setting : Setting} {body' : Body} {walk walk' : Walk} {i i' : Instruction} {index : Nat}
  (h : setting.ThinsTo body') (hindex : setting.body.instructions.toList[index]? = some i)
  (hgrounded : walk.blocks.Grounded setting.body i.position) (huptodate : walk.UpToDate i.position)

include h hindex hgrounded huptodate

omit h in
/-- Nothing that is queued lies inside the instruction. -/
theorem grounded_endPosition : walk.blocks.Grounded setting.body i.endPosition := by
  apply hgrounded.advance huptodate.ahead (Nat.le_add_right _ _)
  intro p hp hlt
  rcases hp.edge i (List.mem_of_getElem? hindex) with hbefore | hafter
  · omega
  · exact hafter

/-- What an instruction queues is grounded. -/
theorem write_grounded : (walk.write setting index i).blocks.Grounded setting.body i.endPosition := by
  have hi := List.mem_of_getElem? hindex
  have hadvanced := grounded_endPosition hindex hgrounded huptodate
  obtain ⟨format, hsuits⟩ := h.regular.suits
  unfold Walk.write
  dsimp only
  split
  · rename_i statement remark hrun
    have hstems := i.statement_stems setting.words setting.scope _ (hsuits i hi) _ _ _ hrun
    have harm := (i.statement_yields setting.words setting.scope _ _ _ _ hrun).2
    exact perform_grounded h.thins hadvanced hi hindex hstems harm
  · exact hadvanced

end

section

variable {setting : Setting} {body' : Body} {walk walk' : Walk} {i i' : Instruction} {index : Nat}
  (h : setting.ThinsTo body') (hindex : setting.body.instructions.toList[index]? = some i)
  (hgrounded : (walk.writeLabel i.position).blocks.Grounded setting.body i.position)
  (huptodate : (walk.writeLabel i.position).UpToDate i.position) (hi : setting.body.Counterparts i i')

include h hindex hgrounded huptodate hi

/-- After a shown instruction the walk is ready at the end of the instruction. -/
theorem ready_utter : (walk.utter setting i index).Ready setting.body i.endPosition := by
  have hsize := (Consecutive.bounds h.regular.tiled hi.mem).2.1
  rw [utter_of_shown setting walk hi.shown]
  split
  · apply Ready.after
    exact ⟨huptodate.toSettled.poised _, huptodate.balanced_queued .nothing hsize,
      grounded_endPosition hindex hgrounded huptodate⟩
  · apply Ready.after
    exact ⟨huptodate.toSettled.write setting index i, huptodate.balanced_queued (write_queued ..) hsize,
      write_grounded h hindex hgrounded huptodate⟩

omit huptodate in
/-- A shown instruction keeps walks alike, if it keeps its shape and what it leads to has a label in the source. -/
theorem alike_utter (halike : (walk.writeLabel i.position).Alike setting (walk'.writeLabel i'.position))
    (htells : i.opcode = .jump → ∀ target ∈ i.jumpTarget?, walk.Tells setting.body i target)
    (hplaces : ∀ p, setting.body.Landing p → (walk.utter setting i index).labels.Mentions p → p ∈ setting.labelPlaces) :
    (walk.utter setting i index).Alike setting
      (walk'.utter { setting with body := body' } i' (setting.body.rank index)) := by
  have htells' : i.opcode = .jump → ∀ target ∈ i.jumpTarget?,
      (walk.writeLabel i.position).Tells setting.body i target :=
    fun hjump target htarget => (htells hjump target htarget).congr (writeLabel_blocks ..)
  have himplicit := Body.isImplicitReturn_renumbered h.strips hindex hi.shown
  have hopcode := hi.renumbered.opcode
  have hshown' : i'.isShown = true := by
    rw [Instruction.isShown, hopcode]
    exact hi.shown
  rw [utter_of_shown setting walk hi.shown] at hplaces ⊢
  rw [utter_of_shown _ walk' hshown']
  simp only [himplicit, hopcode]
  split
  · exact ⟨halike.blocks, rfl, halike.events, halike.labels⟩
  · rename_i hwrites
    rw [if_neg hwrites] at hplaces
    have hwritten := halike.write h hgrounded htells' hi hindex hplaces
    exact ⟨hwritten.blocks, rfl, hwritten.events, hwritten.labels⟩

end

/-!
### Walks in step
-/

/-- Two walks in step. The first has passed the hidden instructions between `start` and `now`, which the second does not
    have, and has let `walk` linger there; the second is `walk'` with the markers that are due. -/
structure InStep (setting : Setting) (now : Nat) (walk walk' : Walk) (start stop : Nat) (next next' : Walk) : Prop where
  ready : walk.Ready setting.body start
  alike : walk.Alike setting walk'
  fresh : setting.body.Fresh start
  onlyLabel : setting.OnlyLabel start stop
  le : start ≤ now
  same : setting.body.compact start = setting.body.compact now
  calm : ∀ before, before < now → setting.Calm start before (walk.reconcile now).blocks.pending
  here : next = walk.lingering stop now
  there : next' = walk'.reconcile (setting.body.compact start)

namespace InStep

variable {setting : Setting} {body' : Body} {now start stop : Nat} {walk walk' next next' : Walk}
  (h : setting.ThinsTo body') (hstep : InStep setting now walk walk' start stop next next')

include hstep

theorem blocks_eq : next.blocks = (walk.reconcile now).blocks := by
  rw [hstep.here, lingering]
  split
  · rw [writeLabel_blocks]
  · rfl

include h

/-- A hidden instruction is passed by the first walk alone, if no block ends behind a turn that it stands at. -/
theorem hidden {i : Instruction} (hi : i ∈ setting.body.instructions.toList) (hhidden : i.isShown = false)
    (hnow : now = i.position) (index : Nat)
    (hends : setting.Turn i.position → ∀ m ∈ next.blocks.pending, m.side = .closing →
      setting.body.compact m.position ≠ setting.body.compact i.position) :
    InStep setting i.endPosition walk walk' start stop (next.step setting i index) next' := by
  subst hnow
  have ht := h.regular.tiled
  have hle : i.position ≤ i.endPosition := Nat.le_add_right _ _
  have hsame := hstep.same
  have hend : setting.body.compact start = setting.body.compact i.endPosition := by
    rw [Body.compact_endPosition_of_hidden ht hi hhidden, hsame]
  have hcalm : setting.Calm start i.position (walk.reconcile i.position).blocks.pending := by
    intro q hq hstart hbefore m hm hside
    rcases Nat.eq_or_lt_of_le hbefore with rfl | hbefore
    · rw [hsame]
      exact hends hq m (hstep.blocks_eq ▸ hm) hside
    · exact hstep.calm q hbefore q hq hstart (Nat.le_refl _) m hm hside
  have htwice := hstep.ready.reconcile_reconcile hcalm hstep.le hle hend
  constructor
  · exact hstep.ready
  · exact hstep.alike
  · exact hstep.fresh
  · exact hstep.onlyLabel
  · exact Nat.le_trans hstep.le hle
  · exact hend
  · -- A turn before the end of the instruction is not behind its start.
    intro before hbefore q hq hstart hle m hm
    rw [← htwice] at hm
    apply hcalm q hq hstart _ m (mem_pending_reconcile hm)
    rcases hq.edge h i hi with hearly | hlate
    · exact hearly
    · omega
  · rw [hstep.here]
    apply hstep.ready.step_hidden hstep.onlyLabel index ht hcalm hi hhidden hstep.le hsame
    intro p hsome
    by_contra hp
    exact hsome (hstep.alike.pending_eq_none hp)
  · exact hstep.there

/-- Once the markers have taken effect, the walks are alike, the label included. -/
theorem alike_writeLabel
    (hdue : ∀ p, setting.body.Edge p → (setting.body.compact p ≤ setting.body.compact now ↔ p ≤ now)) :
    Walk.Alike setting (if stop ≤ now then (walk.reconcile now).writeLabel stop else walk.reconcile now)
      (next'.writeLabel (setting.body.compact now)) := by
  have hreconciled : (walk.reconcile now).Alike setting next' := by
    rw [hstep.there]
    exact hstep.alike.reconcile (hstep.ready.steady h hstep.same hdue)
  -- A label that the second walk writes stands at a place, which is the stop.
  have hplace : ∀ p, setting.Place p → setting.body.compact p = setting.body.compact now → p = stop ∧ p ≤ now := by
    intro p hp hsame
    exact ⟨hstep.onlyLabel.only p hp (hsame.trans hstep.same.symm),
      (hdue p (h.landed.border h.regular.tiled hp.1).edge).1 (Nat.le_of_eq hsame)⟩
  by_cases hstop : setting.Place stop ∧ stop ≤ now
  · have hsame : setting.body.compact stop = setting.body.compact now :=
      (Body.compact_eq_of_le hstep.onlyLabel.le hstop.2 hstep.same).trans hstep.same
    rw [if_pos hstop.2, ← hsame]
    exact hreconciled.writeLabel h.tolerant hstop.1
  · have hnone' : next'.labels.pending[setting.body.compact now]? = none := by
      apply hreconciled.pending_eq_none'
      intro p hp hsame
      obtain ⟨rfl, hle⟩ := hplace p hp hsame
      exact hstop ⟨hp, hle⟩
    rw [writeLabel_of_none hnone']
    split
    · rename_i hle
      rw [writeLabel_of_none (hreconciled.pending_eq_none fun hp => hstop ⟨hp, hle⟩)]
      exact hreconciled
    · exact hreconciled

omit h in
/-- A label at the position itself is the one that there can be. -/
theorem writeLabel_now :
    next.writeLabel now = if stop ≤ now then (walk.reconcile now).writeLabel stop else walk.reconcile now := by
  have hnone : now ≠ stop → (walk.reconcile now).labels.pending[now]? = none := by
    intro hne
    rw [reconcile_labels]
    apply hstep.alike.pending_eq_none
    exact fun hp => hne (hstep.onlyLabel.only now hp hstep.same.symm)
  rw [hstep.here, lingering]
  rcases Nat.lt_trichotomy stop now with hpassed | rfl | hahead
  · rw [if_pos hpassed, if_pos (Nat.le_of_lt hpassed)]
    exact writeLabel_of_none (pending_writeLabel_eq_none (hnone (Nat.ne_of_gt hpassed)) stop)
  · rw [if_neg (Nat.lt_irrefl _), if_pos (Nat.le_refl _)]
  · rw [if_neg (Nat.not_lt.2 (Nat.le_of_lt hahead)), if_neg (Nat.not_le.2 hahead)]
    exact writeLabel_of_none (hnone (Nat.ne_of_lt hahead))

omit h in
/-- Once the label is written the walk is up to date and grounded. -/
theorem upToDate_writeLabel :
    (next.writeLabel now).UpToDate now ∧ (next.writeLabel now).blocks.Grounded setting.body now := by
  have huptodate := hstep.ready.upToDate hstep.le
  rw [hstep.writeLabel_now]
  constructor
  · split
    · exact huptodate.writeLabel stop
    · exact huptodate
  · have hgrounded := hstep.ready.grounded.reconcile hstep.le huptodate
    split
    · rwa [writeLabel_blocks]
    · exact hgrounded

/-- A shown instruction is passed by both walks. -/
theorem shown {i i' : Instruction} {index : Nat} (hindex : setting.body.instructions.toList[index]? = some i)
    (hi : setting.body.Counterparts i i') (hnow : now = i.position)
    (htells : i.opcode = .jump → ∀ target ∈ i.jumpTarget?, next.Tells setting.body i target)
    (hplaces : ∀ p, setting.body.Landing p → (next.step setting i index).labels.Mentions p → p ∈ setting.labelPlaces) :
    ∃ walk walk' stop, InStep setting i.endPosition walk walk' i.endPosition stop (next.step setting i index)
      (next'.step { setting with body := body' } i' (setting.body.rank index)) := by
  subst hnow
  have ht := h.regular.tiled
  have halike := hstep.alike_writeLabel h fun p hp => hp.le_position_iff ht hi.mem hi.shown
  rw [← hstep.writeLabel_now, ← hi.renumbered.position] at halike
  obtain ⟨huptodate, hgrounded⟩ := hstep.upToDate_writeLabel
  have hfresh := Body.fresh_endPosition ht hi.mem hi.shown
  obtain ⟨last, honly⟩ := hfresh.exists_onlyLabel h (Consecutive.bounds ht hi.mem).2.2
  rw [step_eq_utter] at hplaces ⊢
  rw [step_eq_utter, hi.endPosition ht]
  rw [reconcile_labels] at hplaces
  refine ⟨next.utter setting i index, next'.utter { setting with body := body' } i' (setting.body.rank index), last, ?_⟩
  constructor
  · exact ready_utter h hindex hgrounded huptodate hi
  · exact alike_utter h hindex hgrounded hi halike htells hplaces
  · exact hfresh
  · exact honly
  · exact Nat.le_refl _
  · rfl
  · intro before hbefore q _ hstart hle
    omega
  · rw [lingering, if_neg (Nat.not_lt.2 honly.le)]
  · rfl

end InStep

end Walk

namespace Setting

variable {setting : Setting} {body' : Body} (h : setting.ThinsTo body') {seeds : List Nat}
  (hrecovers : setting.Recovers seeds) (hseeds : ∀ p ∈ seeds, setting.body.Landing p)

include h hrecovers hseeds

end Setting

/-!
### After the last instruction
-/

namespace Walk

namespace InStep

variable {setting : Setting} {body' : Body} {start stop : Nat} {walk walk' next next' : Walk}
  (h : setting.ThinsTo body')
  (hstep : InStep setting setting.body.consumed walk walk' start stop next next')

include h hstep

end InStep

end Walk

namespace Setting

variable {setting : Setting} {body' : Body} (h : setting.ThinsTo body') {seeds : List Nat}
  (hrecovers : setting.Recovers seeds) (hseeds : ∀ p ∈ seeds, setting.body.Landing p)

include h

end Setting

end ScriptBytecode
