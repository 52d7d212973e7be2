/-
Module: ScriptBytecode.Proofs.Walk.Brackets
Purpose: The events of a walk as a bracket word. Following the events gives back the chain of open blocks at every
  moment of a walk, so blocks close in the reverse of the order in which they opened and an `else` takes the place of
  an innermost `if`. The invariant is kept by each operation, hence by a step, hence by a whole walk.
Main exports: Event.follow, openAfter, openedNumbers, Walk.Bracketed, Walk.Settled, Walk.Queued, Walk.settled_step,
  Setting.walkTo, Setting.settled_walkTo, Setting.bracketed_walk
-/
import ScriptBytecode.Proofs.Walk.Numbering
import ScriptBytecode.Proofs.Walk.Statements
import ScriptBytecode.Walk

namespace ScriptBytecode

/-- The open blocks, innermost first, after an event, given those before it. A block closes only when it is the
    innermost one, and an `else` opens only in place of an innermost `if`. -/
def Event.follow (chain : List OpenBlock) : Event → Option (List OpenBlock)
  | .opened block _ => some (block :: chain)
  | .alternative block =>
    match chain with
    | top :: outer =>
      if top.kind = .ifBlock ∧ block.kind = .elseBlock then some (block :: outer) else none
    | [] => none
  | .closed kind id _ =>
    match chain with
    | top :: outer => if top.kind = kind ∧ top.id = id then some outer else none
    | [] => none
  | .broke _ | .label _ _ | .statement _ | .diagnostic _ _ _ => some chain

/-- The open blocks after a sequence of events, if its brackets match as far as it goes. -/
def openAfter (events : List Event) : Option (List OpenBlock) := events.foldlM Event.follow []

/-- Number of the block that an event opens. -/
def Event.opens? : Event → Option Nat
  | .opened block _ | .alternative block => some block.id
  | _ => none

/-- Numbers of the blocks that a sequence of events opens, the last one first. -/
def openedNumbers (events : List Event) : List Nat := events.reverse.filterMap Event.opens?

/-- An event that opens and closes nothing. -/
def Event.IsNeutral (e : Event) : Prop :=
  e.opens? = none ∧ ∀ chain, e.follow chain = some chain

theorem openAfter_concat (events : List Event) (e : Event) :
    openAfter (events ++ [e]) = (openAfter events).bind e.follow := by
  simp [openAfter, List.foldlM_append]

theorem openedNumbers_concat (events : List Event) (e : Event) :
    openedNumbers (events ++ [e]) = e.opens?.toList ++ openedNumbers events := by
  cases h : e.opens? <;> simp [openedNumbers, h]

/-- An event that opens an arm of a `switch`. -/
def Event.isArm : Event → Bool
  | .opened block _ => block.kind.isLabelLike
  | _ => false

theorem Event.IsNeutral.isArm {e : Event} (h : e.IsNeutral) : e.isArm = false := by
  cases e with
  | opened block header => cases h.1
  | _ => rfl

/-- Arms of a `switch` open inside other blocks only, if those of `chain` are open before the events. -/
def Armed (chain : List OpenBlock) (events : List Event) : Prop :=
  ∀ before e after, events = before ++ e :: after → e.isArm = true →
    before.foldlM Event.follow chain ≠ some []

theorem armed_nil (chain : List OpenBlock) : Armed chain [] :=
  fun before e after hevents => absurd hevents (by simp)

theorem Armed.concat {events : List Event} {e : Event} (h : Armed [] events)
    (he : e.isArm = true → openAfter events ≠ some []) : Armed [] (events ++ [e]) := by
  intro before arm after hevents harm
  rcases List.eq_nil_or_concat after with rfl | ⟨middle, last, rfl⟩
  · obtain ⟨rfl, hlast⟩ := List.append_inj' hevents rfl
    obtain rfl := List.singleton_inj.1 hlast
    exact he harm
  · rw [List.concat_eq_append, ← List.cons_append, ← List.append_assoc] at hevents
    exact h before arm middle (List.append_inj_left' hevents rfl) harm

namespace Walk

/-- The events that were recorded match as brackets, the blocks that they leave open are the chain, and blocks are
    numbered apart. `taken` are begins that have left the queue and are still to be entered. -/
structure Bracketed (walk : Walk) (taken : List Marker) : Prop where
  follows : openAfter walk.events.toList = some walk.blocks.chain
  arms : Armed [] walk.events.toList
  numbered : walk.blocks.Numbered taken (openedNumbers walk.events.toList)

/-- The innermost open block is an `if`. -/
def InsideIf (blocks : Blocks) : Prop := ∃ top, blocks.innermost? = some top ∧ top.kind = .ifBlock

/-- Between two steps only the begins of `do` loops are queued. -/
structure Settled (walk : Walk) : Prop extends Bracketed walk [] where
  begins : ∀ m ∈ walk.blocks.openings, m.deferred = true ∧ m.kind = .loop

/-- After an instruction at most one begin more is queued. It is due at the end of the instruction, and if it is that
    of an `else`, the innermost block is an `if`; if it is that of an arm, some block is open. -/
structure Poised (walk : Walk) (cursor : Nat) : Prop extends Bracketed walk [] where
  deferred : ∀ m ∈ walk.blocks.openings, m.deferred = true → m.kind = .loop
  plain : walk.blocks.openings.filter (!·.deferred) = [] ∨
    ∃ m, walk.blocks.openings.filter (!·.deferred) = [m] ∧ m.position ≤ cursor ∧
      (m.kind = .elseBlock → InsideIf walk.blocks) ∧
      (m.kind.isLabelLike = true → walk.blocks.chain ≠ [])

theorem Settled.poised {walk : Walk} (h : walk.Settled) (cursor : Nat) : walk.Poised cursor where
  toBracketed := h.toBracketed
  deferred m hm _ := (h.begins m hm).2
  plain := Or.inl (List.filter_eq_nil_iff.2 fun m hm => by simp [(h.begins m hm).1])

/-!
### Events

Events other than openings and closings leave the chain as it is.
-/

theorem Bracketed.emit {walk : Walk} {taken : List Marker} (h : walk.Bracketed taken) {e : Event}
    (he : e.IsNeutral) : (walk.emit e).Bracketed taken := by
  refine ⟨?_, ?_, ?_⟩
  · show openAfter (walk.events.push e).toList = some walk.blocks.chain
    rw [Array.toList_push, openAfter_concat, h.follows, Option.bind_some, he.2]
  · show Armed [] (walk.events.push e).toList
    rw [Array.toList_push]
    exact h.arms.concat fun harm => absurd harm (by simp [he.isArm])
  · show walk.blocks.Numbered taken (openedNumbers (walk.events.push e).toList)
    rw [Array.toList_push, openedNumbers_concat, he.1]
    exact h.numbered

theorem Settled.emit {walk : Walk} (h : walk.Settled) {e : Event} (he : e.IsNeutral) :
    (walk.emit e).Settled :=
  ⟨h.toBracketed.emit he, h.begins⟩

theorem Poised.emit {walk : Walk} {cursor : Nat} (h : walk.Poised cursor) {e : Event}
    (he : e.IsNeutral) : (walk.emit e).Poised cursor :=
  ⟨h.toBracketed.emit he, h.deferred, h.plain⟩

/-!
### Opening
-/

/-- Dropping an innermost `if` takes back its end and leaves it. -/
theorem dropIf_of_if (walk : Walk) {top : OpenBlock} {outer : List OpenBlock}
    (hchain : walk.blocks.chain = top :: outer) (hif : top.kind = .ifBlock) :
    walk.dropIf = { walk with
      blocks := { walk.blocks with
        pending := walk.blocks.pending.eraseP (Blocks.isEndOf top.id)
        chain := outer } } := by
  have hinnermost : walk.blocks.innermost? = some top := by simp [Blocks.innermost?, hchain]
  unfold dropIf
  simp only [hinnermost, hif, if_true]
  rw [Blocks.leave_innermost (show (walk.blocks.cancelEnd top.id).2.chain = top :: outer from hchain)]
  rfl

/-- A begin that opens a block of its own. -/
theorem Bracketed.open {walk : Walk} {marker : Marker} {taken : List Marker}
    (h : walk.Bracketed (marker :: taken)) (header : String)
    (harm : marker.kind.isLabelLike = true → walk.blocks.chain ≠ []) :
    Bracketed { walk.emit (.opened marker.block header) with
      blocks := walk.blocks.enter marker } taken := by
  refine ⟨?_, ?_, ?_⟩
  · show openAfter (walk.events.push _).toList = some (marker.block :: walk.blocks.chain)
    rw [Array.toList_push, openAfter_concat, h.follows]
    rfl
  · show Armed [] (walk.events.push _).toList
    rw [Array.toList_push]
    refine h.arms.concat fun hlike hempty => harm hlike ?_
    rw [h.follows] at hempty
    exact Option.some.inj hempty
  · show (walk.blocks.enter marker).Numbered taken (openedNumbers (walk.events.push _).toList)
    rw [Array.toList_push, openedNumbers_concat]
    exact h.numbered.enter

/-- An `else` in place of an innermost `if`. -/
theorem Bracketed.replace {walk : Walk} {marker : Marker} {taken : List Marker}
    (h : walk.Bracketed (marker :: taken)) (helse : marker.kind = .elseBlock)
    (hinside : InsideIf walk.blocks) :
    Bracketed { walk.dropIf.emit (.alternative marker.block) with
      blocks := walk.dropIf.blocks.enter marker } taken := by
  obtain ⟨top, htop, hif⟩ := hinside
  obtain ⟨outer, hchain⟩ := List.head?_eq_some_iff.1 htop
  have hnumbered := h.numbered.shrink (List.eraseP_sublist (p := Blocks.isEndOf top.id))
    (hchain ▸ List.sublist_cons_self top outer)
  rw [dropIf_of_if walk hchain hif]
  refine ⟨?_, ?_, ?_⟩
  · show openAfter (walk.events.push _).toList = some (marker.block :: outer)
    rw [Array.toList_push, openAfter_concat, h.follows, hchain]
    simp [Event.follow, hif, helse, Marker.block]
  · show Armed [] (walk.events.push _).toList
    rw [Array.toList_push]
    exact h.arms.concat nofun
  · show Blocks.Numbered _ taken (openedNumbers (walk.events.push _).toList)
    rw [Array.toList_push, openedNumbers_concat]
    exact hnumbered.enter

/-- A begin that was taken takes effect. -/
theorem Bracketed.enter {walk : Walk} {marker : Marker} {taken : List Marker}
    (h : walk.Bracketed (marker :: taken))
    (helse : marker.kind = .elseBlock → InsideIf walk.blocks)
    (harm : marker.kind.isLabelLike = true → walk.blocks.chain ≠ []) : (walk.enter marker).Bracketed taken := by
  unfold Walk.enter
  split
  case h_1 => exact Bracketed.emit ⟨h.follows, h.arms, h.numbered.drop⟩ ⟨rfl, fun _ => rfl⟩
  case h_2 hkind => exact h.replace hkind (helse hkind)
  case h_3 => exact h.open _ harm

/-- Entering a block leaves the queue as it is, but for the end of the `if` that an `else` replaces. -/
theorem enter_pending (walk : Walk) (marker : Marker) :
    (walk.enter marker).blocks.pending.Sublist walk.blocks.pending := by
  unfold Walk.enter
  split
  · exact List.Sublist.refl _
  · show walk.dropIf.blocks.pending.Sublist walk.blocks.pending
    unfold dropIf
    split
    · split
      · unfold Blocks.leave
        split <;> exact List.eraseP_sublist
      · exact List.Sublist.refl _
    · exact List.Sublist.refl _
  · exact List.Sublist.refl _

/-- The begins of `do` loops open one after the other. -/
theorem bracketed_foldl_enter {markers : List Marker} {walk : Walk} (h : walk.Bracketed markers)
    (hloops : ∀ m ∈ markers, m.kind = .loop) :
    (markers.foldl Walk.enter walk).Bracketed [] ∧
      (markers.foldl Walk.enter walk).blocks.pending.Sublist walk.blocks.pending := by
  induction markers generalizing walk with
  | nil => exact ⟨h, List.Sublist.refl _⟩
  | cons marker rest ih =>
      have hkind := hloops marker (List.mem_cons_self ..)
      obtain ⟨hrest, hpending⟩ := ih (h.enter (by simp [hkind]) (by simp [hkind, BlockKind.isLabelLike]))
        fun m hm => hloops m (List.mem_cons_of_mem _ hm)
      exact ⟨hrest, hpending.trans (enter_pending walk marker)⟩

theorem openDue_eq (walk : Walk) (horizon : Horizon) (deferred : Bool) :
    walk.openDue horizon deferred = (walk.blocks.takeBegins horizon deferred).1.foldl Walk.enter
      { walk with blocks := (walk.blocks.takeBegins horizon deferred).2 } := rfl

/-- Begins of `do` loops that are due take effect. -/
theorem Settled.openDue {walk : Walk} (h : walk.Settled) (horizon : Horizon) (deferred : Bool) :
    (walk.openDue horizon deferred).Settled := by
  have hloops : ∀ m ∈ (walk.blocks.takeBegins horizon deferred).1, m.kind = .loop := by
    intro m hm
    rw [Blocks.mem_takeBegins] at hm
    exact (h.begins m (by simp [Blocks.openings, hm.1, hm.2.1])).2
  have htaken : Bracketed { walk with blocks := (walk.blocks.takeBegins horizon deferred).2 }
      (walk.blocks.takeBegins horizon deferred).1 :=
    ⟨h.follows, h.arms, h.numbered.takeBegins horizon deferred⟩
  obtain ⟨hbracketed, hpending⟩ := bracketed_foldl_enter htaken hloops
  have hwaiting : (walk.blocks.takeBegins horizon deferred).2.pending.Sublist walk.blocks.pending := by
    rw [Blocks.takeBegins_rest]
    exact List.filter_sublist
  exact ⟨hbracketed, fun m hm => h.begins m (((hpending.trans hwaiting).filter _).subset hm)⟩

/-- The plain begins are due at the end of the instruction that queued them. -/
theorem Poised.takeBegins {walk : Walk} {cursor : Nat} (h : walk.Poised cursor) :
    (walk.blocks.takeBegins (.upTo cursor) false).1 = walk.blocks.openings.filter (!·.deferred) := by
  have hposition : ∀ m ∈ walk.blocks.openings.filter (!·.deferred), m.position ≤ cursor := by
    rcases h.plain with hnone | ⟨m, hone, hle, -, -⟩
    · simp [hnone]
    · simpa [hone] using hle
  rw [Blocks.takeBegins_plain, Blocks.openings, List.filter_filter]
  refine List.filter_congr fun m hm => ?_
  have hle := hposition m
  simp only [Blocks.openings, List.mem_filter, hm, true_and, beq_iff_eq] at hle
  cases hside : m.side <;> cases hdeferred : m.deferred <;>
    simp_all [Blocks.isDue, Horizon.reaches]

/-- The begin that an instruction has queued takes effect at the end of the instruction. -/
theorem Poised.openDue {walk : Walk} {cursor : Nat} (h : walk.Poised cursor) :
    (walk.openDue (.upTo cursor) false).Settled := by
  set rest := (walk.blocks.takeBegins (.upTo cursor) false).2 with hrest
  have hready := h.takeBegins
  -- What stays in the queue is not due, so it is deferred.
  have hwaiting : ∀ m ∈ rest.openings, m.deferred = true ∧ m.kind = .loop := by
    intro m hm
    rw [hrest, Blocks.takeBegins_rest, Blocks.openings, List.filter_filter] at hm
    obtain ⟨hmem, hm⟩ := List.mem_filter.1 hm
    simp only [Bool.and_eq_true, beq_iff_eq, Bool.not_eq_true'] at hm
    have hopening : m ∈ walk.blocks.openings := by simp [Blocks.openings, hmem, hm.1]
    have hdeferred : m.deferred = true := by
      by_contra hplain
      rw [Bool.not_eq_true] at hplain
      have htaken : m ∈ (walk.blocks.takeBegins (.upTo cursor) false).1 := by
        rw [hready]
        simp [hopening, hplain]
      rw [Blocks.takeBegins_plain, List.mem_filter, hm.2] at htaken
      exact Bool.false_ne_true htaken.2
    exact ⟨hdeferred, h.deferred m hopening hdeferred⟩
  have hnumbered := h.numbered.takeBegins (.upTo cursor) false
  have hchain : rest.chain = walk.blocks.chain := by rw [hrest, Blocks.takeBegins_rest]
  unfold Walk.openDue
  rcases h.plain with hnone | ⟨m, hone, -, helse, harm⟩
  · rw [hready, hnone] at hnumbered
    rw [show walk.blocks.takeBegins (.upTo cursor) false = ([], rest) from
      Prod.ext (hready.trans hnone) rfl]
    exact ⟨⟨hchain ▸ h.follows, h.arms, hnumbered⟩, hwaiting⟩
  · rw [hready, hone] at hnumbered
    rw [show walk.blocks.takeBegins (.upTo cursor) false = ([m], rest) from
      Prod.ext (hready.trans hone) rfl]
    have hbracketed : Bracketed { walk with blocks := rest } [m] :=
      ⟨hchain ▸ h.follows, h.arms, hnumbered⟩
    have hinside : m.kind = .elseBlock → InsideIf rest := fun hkind => by
      obtain ⟨top, htop, hif⟩ := helse hkind
      exact ⟨top, by rwa [Blocks.innermost?, hchain], hif⟩
    exact ⟨hbracketed.enter hinside (hchain ▸ harm), fun m' hm' =>
      hwaiting m' (((enter_pending { walk with blocks := rest } m).filter _).subset hm')⟩

/-!
### Closing
-/

/-- The innermost block closes. -/
theorem Bracketed.close {walk : Walk} {top : OpenBlock} {outer : List OpenBlock}
    (h : walk.Bracketed []) (hchain : walk.blocks.chain = top :: outer) (footer : Option String) :
    (walk.close top.kind top.id footer).Bracketed [] ∧
      (walk.close top.kind top.id footer).blocks = { walk.blocks with chain := outer } := by
  have hblocks : (walk.close top.kind top.id footer).blocks = { walk.blocks with chain := outer } :=
    Blocks.leave_innermost hchain
  refine ⟨⟨?_, ?_, ?_⟩, hblocks⟩
  · rw [hblocks]
    show openAfter (walk.events.push _).toList = some outer
    rw [Array.toList_push, openAfter_concat, h.follows, hchain]
    simp [Event.follow]
  · show Armed [] (walk.events.push _).toList
    rw [Array.toList_push]
    exact h.arms.concat nofun
  · rw [hblocks]
    show Blocks.Numbered _ [] (openedNumbers (walk.events.push _).toList)
    rw [Array.toList_push, openedNumbers_concat]
    exact h.numbered.shrink (List.Sublist.refl _) (hchain ▸ List.sublist_cons_self top outer)

/-- Closing the innermost block after some markers have left the queue. -/
theorem Settled.close {walk : Walk} {pending : List Marker} {top : OpenBlock}
    {outer : List OpenBlock} (h : walk.Settled) (hpending : pending.Sublist walk.blocks.pending)
    (hchain : walk.blocks.chain = top :: outer) (footer : Option String) :
    Settled (Walk.close { walk with blocks := { walk.blocks with pending } } top.kind top.id footer) ∧
      (Walk.close { walk with blocks := { walk.blocks with pending } } top.kind top.id footer).blocks =
        { walk.blocks with pending, chain := outer } := by
  have hbracketed : Bracketed { walk with blocks := { walk.blocks with pending } } [] :=
    ⟨h.follows, h.arms, h.numbered.shrink hpending (List.Sublist.refl _)⟩
  obtain ⟨hclosed, hblocks⟩ := hbracketed.close hchain footer
  refine ⟨⟨hclosed, fun m hm => ?_⟩, hblocks⟩
  rw [hblocks] at hm
  exact h.begins m ((hpending.filter _).subset hm)

/-- The end that is due is of the kind of the innermost block, so taking it closes that block. -/
theorem Settled.closeTaken {walk : Walk} {horizon : Horizon} {marker : Marker} {rest : Blocks}
    (h : walk.Settled) (htaken : walk.blocks.takeEnd? horizon = some (marker, rest)) :
    Settled (Walk.close { walk with blocks := rest } marker.kind marker.id marker.text) ∧
      (Walk.close { walk with blocks := rest } marker.kind marker.id marker.text).blocks.chain =
        walk.blocks.chain.tail := by
  obtain ⟨top, outer, hchain, hmem, hid, hside, -, rfl⟩ := Blocks.takeEnd?_eq_some htaken
  have hkind : top.kind = marker.kind :=
    (h.numbered.ends marker hmem hside).chain top (by simp [hchain]) hid.symm
  obtain ⟨hclosed, hblocks⟩ := h.close List.eraseP_sublist hchain marker.text
  rw [hkind, ← hid] at hclosed hblocks
  exact ⟨hclosed, by rw [hblocks, hchain, List.tail_cons]⟩

theorem Settled.closeInside {walk : Walk} (h : walk.Settled) (outer bound : Nat) :
    (walk.closeInside outer bound).Settled := by
  induction bound generalizing walk with
  | zero => exact h
  | succ bound ih =>
      unfold Walk.closeInside
      split
      · exact h
      · rename_i top htop
        split
        · exact h
        · obtain ⟨rest, hchain⟩ := List.head?_eq_some_iff.1 htop
          exact ih (h.close List.eraseP_sublist hchain _).1

theorem Settled.closeDue {walk : Walk} (h : walk.Settled) (horizon : Horizon) (bound : Nat) :
    (walk.closeDue horizon bound).Settled := by
  induction bound generalizing walk with
  | zero => exact h
  | succ bound ih =>
      unfold Walk.closeDue
      split
      · rename_i marker rest htaken
        exact ih (h.closeTaken htaken).1
      · split
        · exact h
        · exact ih (h.closeInside _ _)

/-- Closing everything leaves no block open: every round closes the innermost one. -/
theorem Settled.closeAll {walk : Walk} (h : walk.Settled) {bound : Nat}
    (hbound : walk.blocks.chain.length ≤ bound) :
    (walk.closeAll bound).Settled ∧ (walk.closeAll bound).blocks.chain = [] := by
  induction bound generalizing walk with
  | zero => exact ⟨h, List.length_eq_zero_iff.1 (Nat.le_zero.1 hbound)⟩
  | succ bound ih =>
      unfold Walk.closeAll
      split
      · rename_i marker rest htaken
        obtain ⟨hclosed, hchain⟩ := h.closeTaken htaken
        exact ih hclosed (by rw [hchain, List.length_tail]; omega)
      · split
        · rename_i hempty
          exact ⟨h, List.head?_eq_none_iff.1 hempty⟩
        · rename_i top htop
          obtain ⟨outer, hchain⟩ := List.head?_eq_some_iff.1 htop
          obtain ⟨hclosed, hblocks⟩ := h.close (List.Sublist.refl _) hchain none
          refine ih hclosed ?_
          rw [hblocks]
          rw [hchain, List.length_cons] at hbound
          exact Nat.le_of_succ_le_succ hbound

/-- The markers that are due after an instruction take effect. -/
theorem Poised.reconcile {walk : Walk} {cursor : Nat} (h : walk.Poised cursor) :
    (walk.reconcile cursor).Settled :=
  (h.openDue.closeDue _ _).openDue _ _

/-!
### Statements

What an instruction can do to the queue: nothing, queue a begin alone (a `break`, a `foreach`), queue both ends of a
block, or queue the end of a block that is open or queued already.
-/

/-- The queue after an instruction, given the walk before it. -/
inductive Queued (walk : Walk) (i : Instruction) : Blocks → Prop where
  | nothing : Queued walk i walk.blocks
  | beginOnly {kind : BlockKind} (stop : Nat) (header : Option String)
      (hkind : kind = .switchBreak ∨ kind = .forEach) : Queued walk i
        (walk.blocks.queueBegin kind i.endPosition i.position stop header false).2
  | block {kind : BlockKind} (stop : Nat) (header : Option String)
      (helse : kind = .elseBlock → InsideIf walk.blocks)
      (hkind : kind ≠ .forEach ∧ kind ≠ .switchBreak)
      (harm : kind.isLabelLike = true → walk.blocks.chain ≠ []) :
      Queued walk i (walk.blocks.queueBlock kind i.endPosition i.position stop header).2
  | untilEnd {id : Nat} (footer : Option String)
      (hfound : walk.blocks.findByCreator? .loop i.position = some id) :
      Queued walk i (walk.blocks.queueEnd .loop id i.endPosition footer)
  | forEachEnd {block : OpenBlock} (hmem : block ∈ walk.blocks.chain) (hkind : block.kind = .forEach) :
      Queued walk i (walk.blocks.queueEnd .forEach block.id i.endPosition none)

theorem branch_queued (walk : Walk) (body : Body) (i : Instruction) (target : Nat)
    (condition : String) : Queued walk i (walk.branch body i target condition).2.blocks := by
  unfold Walk.branch
  split
  · split
    · rename_i hfound
      exact .untilEnd _ hfound
    · exact .nothing
  · split
    · exact .block target _ nofun (by decide) nofun
    · exact .block target _ nofun (by decide) nofun

theorem jump_queued (walk : Walk) (i : Instruction) (target : Nat) :
    Queued walk i (walk.jump i target).2.blocks := by
  unfold Walk.jump
  split
  · exact .nothing
  · split
    · exact .beginOnly _ _ (Or.inl rfl)
    · split
      · rename_i helse
        refine .block target none (fun _ => ?_) (by decide) nofun
        -- A jump opens an `else` only out of an innermost `if`.
        unfold Walk.entersElse at helse
        obtain ⟨top, htop, hkind⟩ := (Option.any_eq_true ..).1 helse
        simp only [Bool.and_eq_true, beq_iff_eq] at hkind
        exact ⟨top, htop, hkind.1.1⟩
      · split <;> exact .nothing

theorem perform_queued (walk : Walk) (body : Body) (index : Nat) (i : Instruction)
    (statement : Statement) (harm : statement.isArm = true → walk.blocks.chain ≠ []) :
    Queued walk i (walk.perform body index i statement).2.blocks := by
  cases statement with
  | plain text terminated => exact .nothing
  | remark text => exact .nothing
  | branch target condition => exact branch_queued walk body i target condition
  | jump target => exact jump_queued walk i target
  | editorOnly target => exact .block target _ nofun (by decide) nofun
  | switch value => exact .block _ _ nofun (by decide) nofun
  | caseArm target value => exact .block target none nofun (by decide) fun _ => harm rfl
  | defaultArm => exact .block _ none nofun (by decide) fun _ => harm rfl
  | forEach header stop => exact .beginOnly stop _ (Or.inr rfl)
  | iteratorPop =>
      show Queued walk i (walk.iteratorPop i).blocks
      unfold Walk.iteratorPop
      split
      · split
        · rename_i block hfound
          exact .forEachEnd (List.mem_of_find?_eq_some hfound) (by simpa using List.find?_some hfound)
        · exact .nothing
      · exact .nothing
  | silent => exact .nothing

/-- Statements record nothing by themselves. -/
theorem perform_events (walk : Walk) (body : Body) (index : Nat) (i : Instruction)
    (statement : Statement) : (walk.perform body index i statement).2.events = walk.events := by
  cases statement with
  | branch target condition =>
      show (walk.branch body i target condition).2.events = walk.events
      unfold Walk.branch
      split
      · split <;> rfl
      · split <;> rfl
  | jump target =>
      show (walk.jump i target).2.events = walk.events
      unfold Walk.jump
      repeat' split
      all_goals rfl
  | iteratorPop =>
      show (walk.iteratorPop i).events = walk.events
      unfold Walk.iteratorPop
      repeat' split
      all_goals rfl
  | _ => rfl

/-- A block that is found by its creator bears a number that fits its kind. -/
theorem fits_of_findByCreator {blocks : Blocks} {used : List Nat} (h : blocks.Numbered [] used)
    {kind : BlockKind} {creator id : Nat} (hfound : blocks.findByCreator? kind creator = some id) :
    blocks.Fits [] kind id := by
  unfold Blocks.findByCreator? at hfound
  rcases Option.or_eq_some_iff.1 hfound with hopen | ⟨-, hqueued⟩
  · obtain ⟨b, hb, rfl⟩ := Option.map_eq_some_iff.1 hopen
    have hkind := List.find?_some hb
    simp only [Bool.and_eq_true, beq_iff_eq] at hkind
    rw [← hkind.1]
    exact h.fits_of_mem (List.mem_reverse.1 (List.mem_of_find?_eq_some hb))
  · obtain ⟨m, hm, rfl⟩ := Option.map_eq_some_iff.1 hqueued
    have hkind := List.find?_some hm
    simp only [Bool.and_eq_true, beq_iff_eq] at hkind
    rw [← hkind.1.1]
    exact h.fits_of_begin (by simp [Blocks.openings, List.mem_of_find?_eq_some hm, hkind.2])

/-- What an instruction queues is numbered apart from what there is. -/
theorem Queued.numbered {walk : Walk} {i : Instruction} {blocks : Blocks} {used : List Nat}
    (hqueued : Queued walk i blocks) (h : walk.blocks.Numbered [] used) : blocks.Numbered [] used := by
  cases hqueued with
  | nothing => exact h
  | beginOnly stop header _ => exact h.queueBegin ..
  | block stop header _ _ _ => exact h.queueBlock ..
  | untilEnd footer hfound => exact h.queueEnd (fits_of_findByCreator h hfound) _ _
  | forEachEnd hmem hkind => exact h.queueEnd (hkind ▸ h.fits_of_mem hmem) _ _

/-- Queueing opens and closes nothing. -/
theorem Queued.chain {walk : Walk} {i : Instruction} {blocks : Blocks}
    (hqueued : Queued walk i blocks) : blocks.chain = walk.blocks.chain := by
  cases hqueued <;> rfl

/-- The begins in the queue after an instruction. -/
theorem Queued.openings {walk : Walk} {i : Instruction} {blocks : Blocks}
    (hqueued : Queued walk i blocks) :
    blocks.openings = walk.blocks.openings ∨
      ∃ m, blocks.openings = walk.blocks.openings ++ [m] ∧ m.deferred = false ∧
        m.position = i.endPosition ∧ (m.kind = .elseBlock → InsideIf walk.blocks) ∧
        (m.kind.isLabelLike = true → walk.blocks.chain ≠ []) := by
  cases hqueued with
  | nothing => exact Or.inl rfl
  | @beginOnly kind stop header hkind =>
      have helse : kind ≠ .elseBlock := by rcases hkind with rfl | rfl <;> decide
      have harm : kind.isLabelLike ≠ true := by rcases hkind with rfl | rfl <;> decide
      exact Or.inr ⟨walk.blocks.newBegin kind i.endPosition i.position stop header false,
        by simp [Blocks.openings, Blocks.newBegin], rfl, rfl, fun h => absurd h helse, fun h => absurd h harm⟩
  | @block kind stop header helse hkind harm =>
      exact Or.inr ⟨walk.blocks.newBegin kind i.endPosition i.position stop header false,
        (Blocks.openings_queueEnd ..).trans (by simp [Blocks.openings, Blocks.newBegin]),
        rfl, rfl, helse, harm⟩
  | untilEnd footer _ => exact Or.inl (Blocks.openings_queueEnd ..)
  | forEachEnd _ _ => exact Or.inl (Blocks.openings_queueEnd ..)

/-- After what an instruction has queued, at most one begin is due, at its end. -/
theorem Settled.poised_of_queued {walk next : Walk} {i : Instruction} (h : walk.Settled)
    (hqueued : Queued walk i next.blocks) (hevents : next.events = walk.events) :
    next.Poised i.endPosition := by
  have hplain : walk.blocks.openings.filter (!·.deferred) = [] :=
    List.filter_eq_nil_iff.2 fun m hm => by simp [(h.begins m hm).1]
  refine ⟨⟨?_, hevents ▸ h.arms, ?_⟩, ?_, ?_⟩
  · rw [hevents, hqueued.chain]
    exact h.follows
  · rw [hevents]
    exact hqueued.numbered h.numbered
  · intro m hm hdeferred
    rcases hqueued.openings with heq | ⟨new, heq, hnew, -⟩
    · exact (h.begins m (heq ▸ hm)).2
    · rw [heq, List.mem_append, List.mem_singleton] at hm
      rcases hm with hm | rfl
      · exact (h.begins m hm).2
      · rw [hnew] at hdeferred
        cases hdeferred
  · rcases hqueued.openings with heq | ⟨new, heq, hnew, hposition, helse, harm⟩
    · exact Or.inl (heq ▸ hplain)
    · refine Or.inr ⟨new, by simp [heq, hplain, hnew], Nat.le_of_eq hposition, fun hkind => ?_,
        hqueued.chain ▸ harm⟩
      obtain ⟨top, htop, hif⟩ := helse hkind
      exact ⟨top, by rwa [Blocks.innermost?, hqueued.chain], hif⟩

/-- An arm is a statement only where a `switch` is open. -/
theorem chain_of_isArm {words : Vocabulary} {scope : Scope} {blocks : Blocks} {i : Instruction}
    {statement : Statement} {remark : Option String}
    (h : (i.statement words scope (blocks.isInside .switch)).run none = .ok statement remark)
    (harm : statement.isArm = true) : blocks.chain ≠ [] := by
  have hinside := (i.statement_yields words scope _ _ _ _ h).2 harm
  intro hempty
  simp [Blocks.isInside, hempty] at hinside

theorem Settled.write {walk : Walk} (h : walk.Settled) (setting : Setting) (index : Nat)
    (i : Instruction) : (walk.write setting index i).Poised i.endPosition := by
  unfold Walk.write
  dsimp only
  split
  · rename_i statement remark hstatement
    exact (h.poised_of_queued (perform_queued walk setting.body index i statement (chain_of_isArm hstatement))
      (perform_events walk setting.body index i statement)).emit ⟨rfl, fun _ => rfl⟩
  · exact (h.emit ⟨rfl, fun _ => rfl⟩).poised _

/-!
### The walk
-/

theorem Settled.writeLabel {walk : Walk} (h : walk.Settled) (position : Nat) :
    (walk.writeLabel position).Settled := by
  unfold Walk.writeLabel
  split
  rename_i label labels htake
  split
  · have hlabels : Settled { walk with labels } := ⟨⟨h.follows, h.arms, h.numbered⟩, h.begins⟩
    exact hlabels.emit ⟨rfl, fun _ => rfl⟩
  · exact h

/-- Writing an instruction queues what its statement does. -/
theorem write_queued (walk : Walk) (setting : Setting) (index : Nat) (i : Instruction) :
    Queued walk i (walk.write setting index i).blocks := by
  unfold Walk.write
  dsimp only
  split
  · rename_i statement remark hstatement
    exact perform_queued walk setting.body index i statement (chain_of_isArm hstatement)
  · exact .nothing

/-- The walk once an instruction has been written, before markers take effect. -/
def utter (setting : Setting) (walk : Walk) (i : Instruction) (index : Nat) : Walk :=
  let walk := walk.writeLabel i.position
  if i.opcode.isHidden then walk
  else
    let walk :=
      if setting.suppressImplicitReturn && setting.body.isImplicitReturn index then walk
      else walk.write setting index i
    { walk with previous := some i.opcode }

theorem step_eq_utter (setting : Setting) (walk : Walk) (i : Instruction) (index : Nat) :
    walk.step setting i index = (walk.utter setting i index).reconcile i.endPosition := rfl

/-- An instruction that has been written has queued its markers. -/
theorem Settled.utter {walk : Walk} (h : walk.Settled) (setting : Setting) (i : Instruction) (index : Nat) :
    (walk.utter setting i index).Poised i.endPosition ∧
      Queued (walk.writeLabel i.position) i (walk.utter setting i index).blocks := by
  have hlabel := h.writeLabel i.position
  unfold Walk.utter
  dsimp only
  split
  · exact ⟨hlabel.poised _, .nothing⟩
  · split
    · have hskip := hlabel.poised i.endPosition
      exact ⟨⟨⟨hskip.follows, hskip.arms, hskip.numbered⟩, hskip.deferred, hskip.plain⟩, .nothing⟩
    · have hwrite := hlabel.write setting index i
      exact ⟨⟨⟨hwrite.follows, hwrite.arms, hwrite.numbered⟩, hwrite.deferred, hwrite.plain⟩,
        write_queued _ setting index i⟩

/-- What a step does: the instruction queues its markers, and then those that are due at its end take effect. -/
theorem Settled.step_eq_reconcile {walk : Walk} (h : walk.Settled) (setting : Setting) (i : Instruction)
    (index : Nat) :
    ∃ next : Walk, walk.step setting i index = next.reconcile i.endPosition ∧
      next.Poised i.endPosition ∧ Queued (walk.writeLabel i.position) i next.blocks := by
  obtain ⟨hpoised, hqueued⟩ := h.utter setting i index
  exact ⟨_, step_eq_utter setting walk i index, hpoised, hqueued⟩

/-- A step keeps the invariant, whatever the instruction. -/
theorem settled_step {walk : Walk} (h : walk.Settled) (setting : Setting) (i : Instruction)
    (index : Nat) : (walk.step setting i index).Settled := by
  obtain ⟨next, hstep, hpoised, -⟩ := h.step_eq_reconcile setting i index
  rw [hstep]
  exact hpoised.reconcile

/-- Queues the begin of the `do` loop that a jump back ends. -/
def queueDoLoop (blocks : Blocks) (i : Instruction) : Blocks :=
  match i.jumpTarget? with
  | some target => (blocks.queueBegin .loop target i.position i.endPosition (some "do") true).2
  | none => blocks

theorem queueDoLoops_blocks (setting : Setting) (walk : Walk) :
    (walk.queueDoLoops setting).blocks =
      (setting.body.instructions.toList.filter (·.isDoUntil)).foldl queueDoLoop walk.blocks := rfl

/-- The begins of `do` loops are queued before the first instruction, and nothing is open. -/
theorem settled_queueDoLoops (setting : Setting) (seeds : List Nat) :
    (((registerStates setting {}).registerSeeds seeds).queueDoLoops setting).Settled := by
  have hqueue : ∀ (untils : List Instruction) (blocks : Blocks), blocks.Numbered [] [] →
      blocks.chain = [] → (∀ m ∈ blocks.openings, m.deferred = true ∧ m.kind = .loop) →
      (untils.foldl queueDoLoop blocks).Numbered [] [] ∧ (untils.foldl queueDoLoop blocks).chain = [] ∧
        ∀ m ∈ (untils.foldl queueDoLoop blocks).openings, m.deferred = true ∧ m.kind = .loop := by
    intro untils
    induction untils with
    | nil => exact fun blocks hnumbered hchain hbegins => ⟨hnumbered, hchain, hbegins⟩
    | cons i rest ih =>
        intro blocks hnumbered hchain hbegins
        rw [List.foldl_cons, queueDoLoop]
        cases i.jumpTarget? with
        | none => exact ih blocks hnumbered hchain hbegins
        | some target =>
            refine ih _ (hnumbered.queueBegin ..) hchain fun m hm => ?_
            simp only [Blocks.openings, Blocks.queueBegin_pending, List.filter_append,
              List.mem_append] at hm
            rcases hm with hm | hm
            · exact hbegins m hm
            · obtain rfl := List.mem_singleton.1 (List.mem_of_mem_filter hm)
              exact ⟨rfl, rfl⟩
  obtain ⟨hnumbered, hchain, hbegins⟩ :=
    hqueue (setting.body.instructions.toList.filter (·.isDoUntil)) {}
      ⟨List.nodup_nil, by simp, List.nodup_nil, by simp, List.nodup_nil, by simp [Blocks.openings],
        by simp⟩ rfl (by simp [Blocks.openings])
  exact ⟨⟨congrArg some hchain.symm, armed_nil [], hnumbered⟩, hbegins⟩

theorem settled_prepare (setting : Setting) (seeds : List Nat) : (prepare setting seeds).Settled :=
  ((settled_queueDoLoops setting seeds).poised 0).reconcile

/-- Labels at the end open and close nothing. -/
theorem Settled.writeLastLabels {walk : Walk} (h : walk.Settled) (setting : Setting) :
    (walk.writeLastLabels setting).Settled := by
  have hfold : ∀ (labels : List Label) (walk : Walk), walk.Settled →
      (labels.foldl (fun walk label => walk.emit (.label label.name label.position)) walk).Settled := by
    intro labels
    induction labels with
    | nil => exact fun _ hwalk => hwalk
    | cons label rest ih => exact fun walk hwalk => ih _ (hwalk.emit ⟨rfl, fun _ => rfl⟩)
  exact hfold _ _ ⟨⟨h.follows, h.arms, h.numbered⟩, h.begins⟩

/-- At the end of a walk every block is closed. -/
theorem Settled.finish {walk : Walk} (h : walk.Settled) (setting : Setting) :
    (walk.finish setting).Bracketed [] ∧ (walk.finish setting).blocks.chain = [] := by
  obtain ⟨hclosed, hchain⟩ :=
    (((h.writeLastLabels setting).openDue .unbounded false).openDue .unbounded true).closeAll
      (Nat.le_refl _)
  unfold Walk.finish
  dsimp only
  rw [Blocks.drain_rest]
  exact ⟨⟨hclosed.follows, hclosed.arms,
    hclosed.numbered.shrink (List.nil_sublist _) (List.Sublist.refl _)⟩, hchain⟩

end Walk

namespace Setting

/-- The walk over the first `count` instructions. -/
def walkTo (setting : Setting) (seeds : List Nat) (count : Nat) : Walk :=
  (setting.body.instructions.toList.zipIdx.take count).foldl
    (fun walk (i, index) => walk.step setting i index) (Walk.prepare setting seeds)

theorem walk_eq_finish (setting : Setting) (seeds : List Nat) :
    setting.walk seeds = (setting.walkTo seeds setting.body.instructions.size).finish setting := by
  unfold walk walkTo
  rw [List.take_of_length_le (by simp)]

/-- The invariant holds after every instruction of a walk. -/
theorem settled_walkTo (setting : Setting) (seeds : List Nat) (count : Nat) :
    (setting.walkTo seeds count).Settled := by
  have hfold : ∀ (steps : List (Instruction × Nat)) (walk : Walk), walk.Settled →
      (steps.foldl (fun walk (i, index) => walk.step setting i index) walk).Settled := by
    intro steps
    induction steps with
    | nil => exact fun _ hwalk => hwalk
    | cons next rest ih => exact fun walk hwalk => ih _ (Walk.settled_step hwalk setting next.1 next.2)
  exact hfold _ _ (Walk.settled_prepare setting seeds)

/-- The events of a whole walk match, and nothing is left open. -/
theorem bracketed_walk (setting : Setting) (seeds : List Nat) :
    (setting.walk seeds).Bracketed [] ∧ (setting.walk seeds).blocks.chain = [] := by
  rw [walk_eq_finish]
  exact (setting.settled_walkTo seeds _).finish setting

end Setting

end ScriptBytecode
