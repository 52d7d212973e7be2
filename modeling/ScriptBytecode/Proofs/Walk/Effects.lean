/-
Module: ScriptBytecode.Proofs.Walk.Effects
Purpose: Which events come of which markers. A marker that leaves the queue leaves an event behind, and every event of a
  marker comes from the queue, but for the ends of blocks that are closed before their time. After an instruction the
  begin that it has queued comes first, then blocks close, and then `do` loops open.
Main exports: Marker.effect, Walk.TakesEffect, Walk.Closes, Settled.closes_closeDue, Settled.closes_closeAll,
  takesEffect_openDue, Poised.takesEffect_reconcile, Settled.takesEffect_flush
-/
import ScriptBytecode.Proofs.Walk.Markers

namespace ScriptBytecode

/-- The event that a marker leaves behind when it takes effect. -/
def Marker.effect (m : Marker) : Event :=
  match m.side with
  | .closing => .closed m.kind m.id m.text
  | .opening =>
    match m.kind with
    | .switchBreak => .broke (m.text.getD "break;")
    | .elseBlock => .alternative m.block
    | _ => .opened m.block (m.text.getD "")

theorem Marker.effect_of_closing {m : Marker} (h : m.side = .closing) : m.effect = .closed m.kind m.id m.text := by
  rw [effect, h]

/-- The begin of a loop opens it with its header. -/
theorem Marker.effect_of_loop {m : Marker} (hside : m.side = .opening) (hkind : m.kind = .loop) :
    m.effect = .opened m.block (m.text.getD "") := by
  rw [effect, hside, hkind]

theorem Marker.of_effect_broke {m : Marker} {text : String} (h : m.effect = .broke text) :
    m.kind = .switchBreak ∧ text = m.text.getD "break;" := by
  unfold effect at h
  split at h
  · cases h
  · split at h
    · cases h
      exact ⟨‹_›, rfl⟩
    · cases h
    · cases h

theorem Marker.of_effect_closed {m : Marker} {kind : BlockKind} {id : Nat} {footer : Option String}
    (h : m.effect = .closed kind id footer) : m.side = .closing ∧ m.kind = kind ∧ m.id = id ∧ m.text = footer := by
  unfold effect at h
  split at h
  · cases h
    exact ⟨‹_›, rfl, rfl, rfl⟩
  · split at h <;> cases h

theorem Marker.effect_ne_statement (m : Marker) (line : Line) : m.effect ≠ .statement line := by
  unfold effect
  split
  · exact fun h => by cases h
  · split <;> exact fun h => by cases h

/-- An event that closes a block. -/
def Event.isClosing : Event → Bool
  | .closed _ _ _ => true
  | _ => false

namespace Walk

/-- Markers of the queue take effect, and `new` are the events of it. No begin leaves the queue without an event, and no
    block opens without one. -/
structure TakesEffect (walk next : Walk) (new : List Event) : Prop where
  events : next.events.toList = walk.events.toList ++ new
  pending : next.blocks.pending.Sublist walk.blocks.pending
  source : ∀ e ∈ new, (∃ m ∈ walk.blocks.pending, e = m.effect) ∨ ∃ kind id, e = .closed kind id none
  begins : ∀ m ∈ walk.blocks.openings, m ∈ next.blocks.openings ∨ m.effect ∈ new
  chain : ∀ b ∈ next.blocks.chain,
    b ∈ walk.blocks.chain ∨ ∃ m ∈ walk.blocks.openings, m.block = b ∧ m.effect ∈ new

/-- Blocks close, and no end leaves the queue without an event. -/
structure Closes (walk next : Walk) (new : List Event) : Prop extends TakesEffect walk next new where
  closing : ∀ e ∈ new, e.isClosing = true
  ends : ∀ m ∈ walk.blocks.pending, m.side = .closing → m ∈ next.blocks.pending ∨ m.effect ∈ new

variable {walk middle next : Walk} {first second : List Event}

theorem TakesEffect.refl (walk : Walk) : TakesEffect walk walk [] where
  events := (List.append_nil _).symm
  pending := List.Sublist.refl _
  source _ he := absurd he List.not_mem_nil
  begins _ hm := Or.inl hm
  chain _ hb := Or.inl hb

theorem TakesEffect.openings (h : TakesEffect walk next first) {m : Marker} (hm : m ∈ next.blocks.openings) :
    m ∈ walk.blocks.openings :=
  (h.pending.filter _).subset hm

theorem TakesEffect.trans (h : TakesEffect walk middle first) (h' : TakesEffect middle next second) :
    TakesEffect walk next (first ++ second) where
  events := by rw [h'.events, h.events, List.append_assoc]
  pending := h'.pending.trans h.pending
  source e he := by
    rcases List.mem_append.1 he with he | he
    · exact h.source e he
    · exact (h'.source e he).imp_left fun ⟨m, hm, heq⟩ => ⟨m, h.pending.subset hm, heq⟩
  begins m hm := by
    rcases h.begins m hm with hm | hm
    · exact (h'.begins m hm).imp_right (List.mem_append_right _)
    · exact Or.inr (List.mem_append_left _ hm)
  chain b hb := by
    rcases h'.chain b hb with hb | ⟨m, hm, hblock, heffect⟩
    · exact (h.chain b hb).imp_right fun ⟨m, hm, hblock, heffect⟩ => ⟨m, hm, hblock, List.mem_append_left _ heffect⟩
    · exact Or.inr ⟨m, h.openings hm, hblock, List.mem_append_right _ heffect⟩

theorem Closes.refl (walk : Walk) : Closes walk walk [] where
  toTakesEffect := .refl walk
  closing _ he := absurd he List.not_mem_nil
  ends _ hm _ := Or.inl hm

theorem Closes.trans (h : Closes walk middle first) (h' : Closes middle next second) :
    Closes walk next (first ++ second) where
  toTakesEffect := h.toTakesEffect.trans h'.toTakesEffect
  closing e he := (List.mem_append.1 he).elim (h.closing e) (h'.closing e)
  ends m hm hside := by
    rcases h.ends m hm hside with hm | hm
    · exact (h'.ends m hm hside).imp_right (List.mem_append_right _)
    · exact Or.inr (List.mem_append_left _ hm)

/-!
### Closing
-/

/-- What `eraseP` takes out is what `find?` finds. -/
theorem mem_eraseP_or_find? {p : Marker → Bool} {markers : List Marker} {m : Marker} (hm : m ∈ markers) :
    m ∈ markers.eraseP p ∨ markers.find? p = some m := by
  induction markers with
  | nil => cases hm
  | cons head rest ih =>
      cases hp : p head with
      | true =>
          rw [List.eraseP_cons_of_pos hp, List.find?_cons_of_pos hp]
          exact (List.mem_cons.1 hm).symm.imp_right fun heq => congrArg some heq.symm
      | false =>
          have hneg : ¬p head = true := Bool.eq_false_iff.1 hp
          rw [List.eraseP_cons_of_neg hneg, List.find?_cons_of_neg hneg]
          rcases List.mem_cons.1 hm with rfl | hm
          · exact Or.inl List.mem_cons_self
          · exact (ih hm).imp_left (List.mem_cons_of_mem _)

/-- The innermost block closes. What leaves the queue is the end of that block, and its text is the footer. -/
theorem closes_close {pending : List Marker} {top : OpenBlock} {outer : List OpenBlock} {footer : Option String}
    (hpending : pending.Sublist walk.blocks.pending) (hchain : walk.blocks.chain = top :: outer)
    (hfooter : footer = none ∨ ∃ m ∈ walk.blocks.pending, m.effect = .closed top.kind top.id footer)
    (hgone : ∀ m ∈ walk.blocks.pending, m ∈ pending ∨ m.side = .closing ∧ m.effect = .closed top.kind top.id footer) :
    Closes walk (Walk.close { walk with blocks := { walk.blocks with pending } } top.kind top.id footer)
      [.closed top.kind top.id footer] := by
  have hblocks : (Walk.close { walk with blocks := { walk.blocks with pending } } top.kind top.id footer).blocks =
      { walk.blocks with pending, chain := outer } := by
    have hinner : ({ walk.blocks with pending } : Blocks).chain = top :: outer := hchain
    exact Blocks.leave_innermost hinner
  constructor
  · constructor
    · exact Array.toList_push
    · rw [hblocks]
      exact hpending
    · intro e he
      obtain rfl := List.mem_singleton.1 he
      rcases hfooter with rfl | ⟨m, hm, heffect⟩
      · exact Or.inr ⟨_, _, rfl⟩
      · exact Or.inl ⟨m, hm, heffect.symm⟩
    · intro m hm
      obtain ⟨hmem, hside⟩ := List.mem_filter.1 hm
      rcases hgone m hmem with hkept | ⟨hclosing, -⟩
      · rw [hblocks]
        exact Or.inl (List.mem_filter.2 ⟨hkept, hside⟩)
      · rw [hclosing] at hside
        cases hside
    · intro b hb
      rw [hblocks] at hb
      exact Or.inl (hchain ▸ List.mem_cons_of_mem _ hb)
  · intro e he
    obtain rfl := List.mem_singleton.1 he
    rfl
  · intro m hm _
    rw [hblocks]
    exact (hgone m hm).imp_right fun hgone => List.mem_singleton.2 hgone.2

/-- The end of an open block is of its kind. -/
theorem Settled.effect_eq (h : walk.Settled) {m : Marker} {top : OpenBlock} (hm : m ∈ walk.blocks.pending)
    (htop : top ∈ walk.blocks.chain) (hend : Blocks.isEndOf top.id m = true) :
    m.side = .closing ∧ m.effect = .closed top.kind top.id m.text := by
  obtain ⟨hid, hside⟩ := Blocks.isEndOf_iff.1 hend
  have hkind := (h.numbered.ends m hm hside).chain top htop hid.symm
  rw [Marker.effect_of_closing hside, hid, hkind]
  exact ⟨hside, rfl⟩

theorem Settled.closes_taken (h : walk.Settled) {horizon : Horizon} {marker : Marker} {rest : Blocks}
    (htaken : walk.blocks.takeEnd? horizon = some (marker, rest)) :
    ∃ new, Closes walk (Walk.close { walk with blocks := rest } marker.kind marker.id marker.text) new := by
  obtain ⟨top, outer, hchain, hmem, hid, hside, -, rfl⟩ := Blocks.takeEnd?_eq_some htaken
  have htop : top ∈ walk.blocks.chain := hchain ▸ List.mem_cons_self
  have heffect := (h.effect_eq hmem htop (Blocks.isEndOf_iff.2 ⟨hid, hside⟩)).2
  have hkind : marker.kind = top.kind := by
    rw [Marker.effect_of_closing hside] at heffect
    exact (Event.closed.inj heffect).1
  rw [hkind, hid]
  refine ⟨_, closes_close List.eraseP_sublist hchain (Or.inr ⟨marker, hmem, heffect⟩) ?_⟩
  intro m hm
  refine (mem_eraseP_or_find? hm).imp_right fun hfind => ?_
  obtain rfl : m = marker := by
    simp only [Blocks.takeEnd?, Blocks.innermost?, hchain, List.head?_cons, Option.bind_eq_bind, Option.bind_some,
      hfind, Option.pure_def, Option.some.injEq, Prod.mk.injEq] at htaken
    exact htaken.1
  exact ⟨hside, heffect⟩

/-- A block that is closed before its time takes its end with it. -/
theorem Settled.closes_cancelled (h : walk.Settled) {top : OpenBlock} {outer : List OpenBlock}
    (hchain : walk.blocks.chain = top :: outer) :
    Closes walk (Walk.close { walk with blocks := (walk.blocks.cancelEnd top.id).2 } top.kind top.id
      ((walk.blocks.cancelEnd top.id).1.bind (·.text)))
      [.closed top.kind top.id ((walk.blocks.cancelEnd top.id).1.bind (·.text))] := by
  have htop : top ∈ walk.blocks.chain := hchain ▸ List.mem_cons_self
  have hfound : ∀ m, walk.blocks.pendingEnd? top.id = some m → m.side = .closing ∧
      m.effect = .closed top.kind top.id ((walk.blocks.cancelEnd top.id).1.bind (·.text)) := by
    intro m hfind
    have heffect := h.effect_eq (List.mem_of_find?_eq_some hfind) htop (List.find?_some hfind)
    rwa [show (walk.blocks.cancelEnd top.id).1 = some m from hfind]
  apply closes_close List.eraseP_sublist hchain
  · cases hfind : walk.blocks.pendingEnd? top.id with
    | none => exact Or.inl (by rw [Blocks.cancelEnd, hfind]; rfl)
    | some m => exact Or.inr ⟨m, List.mem_of_find?_eq_some hfind, (hfound m hfind).2⟩
  · exact fun m hm => (mem_eraseP_or_find? hm).imp_right (hfound m)

theorem Settled.closes_closeInside (h : walk.Settled) (outer bound : Nat) :
    ∃ new, Closes walk (walk.closeInside outer bound) new := by
  induction bound generalizing walk with
  | zero => exact ⟨[], .refl walk⟩
  | succ bound ih =>
      unfold Walk.closeInside
      split
      · exact ⟨[], .refl walk⟩
      · rename_i top htop
        split
        · exact ⟨[], .refl walk⟩
        · obtain ⟨rest, hchain⟩ := List.head?_eq_some_iff.1 htop
          obtain ⟨new, hnew⟩ := ih (h.close List.eraseP_sublist hchain _).1
          exact ⟨_, (h.closes_cancelled hchain).trans hnew⟩

theorem Settled.closes_closeDue (h : walk.Settled) (horizon : Horizon) (bound : Nat) :
    ∃ new, Closes walk (walk.closeDue horizon bound) new := by
  induction bound generalizing walk with
  | zero => exact ⟨[], .refl walk⟩
  | succ bound ih =>
      unfold Walk.closeDue
      split
      · rename_i marker rest htaken
        obtain ⟨first, hfirst⟩ := h.closes_taken htaken
        obtain ⟨second, hsecond⟩ := ih (h.closeTaken htaken).1
        exact ⟨_, hfirst.trans hsecond⟩
      · split
        · exact ⟨[], .refl walk⟩
        · obtain ⟨first, hfirst⟩ := h.closes_closeInside _ walk.blocks.chain.length
          obtain ⟨second, hsecond⟩ := ih (h.closeInside _ walk.blocks.chain.length)
          exact ⟨_, hfirst.trans hsecond⟩

theorem Settled.closes_closeAll (h : walk.Settled) (bound : Nat) : ∃ new, Closes walk (walk.closeAll bound) new := by
  induction bound generalizing walk with
  | zero => exact ⟨[], .refl walk⟩
  | succ bound ih =>
      unfold Walk.closeAll
      split
      · rename_i marker rest htaken
        obtain ⟨first, hfirst⟩ := h.closes_taken htaken
        obtain ⟨second, hsecond⟩ := ih (h.closeTaken htaken).1
        exact ⟨_, hfirst.trans hsecond⟩
      · split
        · exact ⟨[], .refl walk⟩
        · rename_i top htop
          obtain ⟨outer, hchain⟩ := List.head?_eq_some_iff.1 htop
          obtain ⟨second, hsecond⟩ := ih (h.close (List.Sublist.refl _) hchain none).1
          have hfirst := closes_close (List.Sublist.refl _) hchain (Or.inl rfl) fun m hm => Or.inl hm
          exact ⟨_, hfirst.trans hsecond⟩

/-!
### Opening
-/

theorem dropIf_events (walk : Walk) : walk.dropIf.events = walk.events := by
  unfold dropIf
  split
  · split <;> rfl
  · rfl

/-- Dropping an `if` leaves the begins in the queue. -/
theorem dropIf_openings (walk : Walk) : walk.dropIf.blocks.openings = walk.blocks.openings := by
  have herase : ∀ id, (walk.blocks.pending.eraseP (Blocks.isEndOf id)).filter (·.side == .opening) =
      walk.blocks.openings := by
    intro id
    rw [Blocks.openings]
    induction walk.blocks.pending with
    | nil => rfl
    | cons m rest ih =>
        cases hend : Blocks.isEndOf id m with
        | true =>
            have hside := (Blocks.isEndOf_iff.1 hend).2
            rw [List.eraseP_cons_of_pos hend, List.filter_cons_of_neg (by rw [hside]; decide)]
        | false =>
            rw [List.eraseP_cons_of_neg (Bool.eq_false_iff.1 hend), List.filter_cons, List.filter_cons, ih]
  unfold dropIf
  split
  · split
    · unfold Blocks.leave
      split <;> exact herase _
    · rfl
  · rfl

/-- A begin that takes effect leaves its event behind. -/
theorem enter_events {marker : Marker} (hside : marker.side = .opening) :
    (walk.enter marker).events.toList = walk.events.toList ++ [marker.effect] := by
  unfold Walk.enter Marker.effect
  rw [hside]
  cases marker.kind <;> simp [emit, dropIf_events]

theorem enter_openings (walk : Walk) (marker : Marker) :
    (walk.enter marker).blocks.openings = walk.blocks.openings := by
  unfold Walk.enter
  split
  · rfl
  · exact walk.dropIf_openings
  · rfl

/-- Begins that were taken take effect one after the other. -/
theorem foldl_enter (walk : Walk) {markers : List Marker} (hside : ∀ m ∈ markers, m.side = .opening) :
    (markers.foldl Walk.enter walk).events.toList = walk.events.toList ++ markers.map Marker.effect ∧
      (markers.foldl Walk.enter walk).blocks.openings = walk.blocks.openings := by
  induction markers generalizing walk with
  | nil => exact ⟨(List.append_nil _).symm, rfl⟩
  | cons marker rest ih =>
      obtain ⟨hevents, hopenings⟩ := ih (walk.enter marker) fun m hm => hside m (List.mem_cons_of_mem _ hm)
      constructor
      · rw [List.foldl_cons, hevents, enter_events (hside marker List.mem_cons_self), List.append_assoc]
        rfl
      · exact hopenings.trans (enter_openings walk marker)

/-- The begins that are due take effect. -/
theorem takesEffect_openDue (walk : Walk) (horizon : Horizon) (deferred : Bool) :
    TakesEffect walk (walk.openDue horizon deferred)
      ((walk.blocks.takeBegins horizon deferred).1.map Marker.effect) := by
  have hmem : ∀ m ∈ (walk.blocks.takeBegins horizon deferred).1, m ∈ walk.blocks.openings := by
    intro m hm
    obtain ⟨hpending, hside, -⟩ := Blocks.mem_takeBegins.1 hm
    exact List.mem_filter.2 ⟨hpending, by rw [hside]; rfl⟩
  have hside : ∀ m ∈ (walk.blocks.takeBegins horizon deferred).1, m.side = .opening :=
    fun m hm => (Blocks.mem_takeBegins.1 hm).2.1
  have hrest := Blocks.takeBegins_rest walk.blocks horizon deferred
  rw [openDue_eq]
  obtain ⟨hevents, hopenings⟩ :=
    foldl_enter { walk with blocks := (walk.blocks.takeBegins horizon deferred).2 } hside
  constructor
  · exact hevents
  · apply (foldl_enter_pending _ _).trans
    rw [hrest]
    exact List.filter_sublist
  · intro e he
    obtain ⟨m, hm, rfl⟩ := List.mem_map.1 he
    exact Or.inl ⟨m, List.mem_of_mem_filter (hmem m hm), rfl⟩
  · intro m hm
    rw [hopenings]
    cases hdue : Blocks.isDue horizon deferred m with
    | true =>
        have htaken := Blocks.mem_takeBegins.2 ⟨List.mem_of_mem_filter hm, Blocks.isDue_iff.1 hdue⟩
        exact Or.inr (List.mem_map_of_mem htaken)
    | false =>
        obtain ⟨hqueued, hopening⟩ := List.mem_filter.1 hm
        refine Or.inl (List.mem_filter.2 ⟨?_, hopening⟩)
        rw [hrest]
        exact List.mem_filter.2 ⟨hqueued, by rw [hdue]; rfl⟩
  · intro b hb
    rcases mem_chain_foldl_enter hb with hb | ⟨m, hm, -, hblock⟩
    · rw [hrest] at hb
      exact Or.inl hb
    · exact Or.inr ⟨m, hmem m hm, hblock.symm, List.mem_map_of_mem hm⟩

/-!
### After an instruction
-/

/-- The begins that an instruction has queued. -/
def plainBegins (walk : Walk) : List Marker := walk.blocks.openings.filter (!·.deferred)

/-- What takes effect after an instruction: the begin that it has queued, ends, and then begins of `do` loops. If it has
    queued no begin, every end that leaves the queue leaves its event among the ends. -/
theorem Poised.takesEffect_reconcile {cursor : Nat} (h : walk.Poised cursor) :
    ∃ closings loops,
      TakesEffect walk (walk.reconcile cursor) (walk.plainBegins.map Marker.effect ++ (closings ++ loops)) ∧
      (∀ e ∈ closings, e.isClosing = true) ∧
      (∀ e ∈ loops, ∃ m ∈ walk.blocks.openings, m.kind = .loop ∧ e = m.effect) ∧
      (walk.plainBegins = [] → ∀ m ∈ walk.blocks.pending, m.side = .closing →
        m ∈ (walk.reconcile cursor).blocks.pending ∨ m.effect ∈ closings) := by
  have hopened := takesEffect_openDue walk (.upTo cursor) false
  rw [h.takeBegins] at hopened
  obtain ⟨closings, hclosed⟩ := h.openDue.closes_closeDue (.upTo cursor)
    (walk.openDue (.upTo cursor) false).blocks.chain.length
  have hsettled := h.openDue.closeDue (.upTo cursor) (walk.openDue (.upTo cursor) false).blocks.chain.length
  have hloops := takesEffect_openDue ((walk.openDue (.upTo cursor) false).closeDue (.upTo cursor)
    (walk.openDue (.upTo cursor) false).blocks.chain.length) (.upTo cursor) true
  refine ⟨closings, _, hopened.trans (hclosed.toTakesEffect.trans hloops), hclosed.closing, ?_, ?_⟩
  · intro e he
    obtain ⟨m, hm, rfl⟩ := List.mem_map.1 he
    obtain ⟨hpending, hside, -⟩ := Blocks.mem_takeBegins.1 hm
    have hopening : m ∈ ((walk.openDue (.upTo cursor) false).closeDue (.upTo cursor)
        (walk.openDue (.upTo cursor) false).blocks.chain.length).blocks.openings :=
      List.mem_filter.2 ⟨hpending, by rw [hside]; rfl⟩
    exact ⟨m, hopened.openings (hclosed.openings hopening), (hsettled.begins m hopening).2, rfl⟩
  · intro hnone m hm hside
    have hwaiting : m ∈ (walk.openDue (.upTo cursor) false).blocks.pending := by
      rw [openDue_eq, h.takeBegins, ← plainBegins, hnone, Blocks.takeBegins_rest]
      exact List.mem_filter.2 ⟨hm, by simp [Blocks.isDue, hside]⟩
    exact (hclosed.ends m hwaiting hside).imp_left fun hkept => hsettled.end_mem_openDue hkept hside _ _

/-- What takes effect after the last instruction: all begins, and then the ends of all that is open. -/
theorem Settled.takesEffect_flush (h : walk.Settled) (setting : Setting) :
    ∃ new, TakesEffect (walk.writeLastLabels setting) (walk.flush setting) new := by
  have hplain := takesEffect_openDue (walk.writeLastLabels setting) .unbounded false
  have hloops := takesEffect_openDue ((walk.writeLastLabels setting).openDue .unbounded false) .unbounded true
  obtain ⟨closings, hclosed⟩ :=
    (((h.writeLastLabels setting).openDue .unbounded false).openDue .unbounded true).closes_closeAll
      (((walk.writeLastLabels setting).openDue .unbounded false).openDue .unbounded true).blocks.chain.length
  exact ⟨_, (hplain.trans hloops).trans hclosed.toTakesEffect⟩

end Walk

end ScriptBytecode
