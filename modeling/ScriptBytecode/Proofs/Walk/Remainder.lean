/-
Module: ScriptBytecode.Proofs.Walk.Remainder
Purpose: What is left of the queue and of the open blocks once markers have taken effect. Closing only takes away;
  opening takes begins out of the queue and adds their blocks. Where nothing is due, nothing happens.
Main exports: Blocks.Shrinks, Walk.shrinks_closeDue, Walk.mem_chain_enter, Walk.openDue_pending, Walk.openDue_of_none,
  Walk.closeDue_of_none, Walk.reconcile_of_quiet, Walk.mem_pending_reconcile, Walk.mem_chain_reconcile
-/
import ScriptBytecode.Proofs.Walk.Brackets

namespace ScriptBytecode

/-!
### Closing
-/

/-- Fewer markers are queued and fewer blocks are open. -/
def Blocks.Shrinks (next blocks : Blocks) : Prop :=
  next.pending.Sublist blocks.pending ∧ next.chain.Sublist blocks.chain

theorem Blocks.Shrinks.trans {a b c : Blocks} (h : a.Shrinks b) (h' : b.Shrinks c) : a.Shrinks c :=
  ⟨h.1.trans h'.1, h.2.trans h'.2⟩

theorem Blocks.shrinks_refl (blocks : Blocks) : blocks.Shrinks blocks := ⟨List.Sublist.refl _, List.Sublist.refl _⟩

theorem Blocks.shrinks_leave (blocks : Blocks) (id : Nat) : (blocks.leave id).2.Shrinks blocks := by
  unfold leave
  split
  · exact blocks.shrinks_refl
  · rename_i entry outer hdrop
    have hsuffix := (List.dropWhile_suffix (l := blocks.chain) (·.id != id)).sublist
    rw [hdrop] at hsuffix
    exact ⟨List.Sublist.refl _, (List.sublist_cons_self ..).trans hsuffix⟩

namespace Walk

theorem shrinks_close (walk : Walk) (kind : BlockKind) (id : Nat) (footer : Option String) :
    (walk.close kind id footer).blocks.Shrinks walk.blocks :=
  walk.blocks.shrinks_leave id

theorem shrinks_closeTaken {walk : Walk} {horizon : Horizon} {taken : Marker × Blocks}
    (htaken : walk.blocks.takeEnd? horizon = some taken) :
    (Walk.close { walk with blocks := taken.2 } taken.1.kind taken.1.id taken.1.text).blocks.Shrinks
      walk.blocks := by
  obtain ⟨top, outer, -, -, -, -, -, hrest⟩ := Blocks.takeEnd?_eq_some htaken
  apply (shrinks_close ..).trans
  rw [hrest]
  exact ⟨List.eraseP_sublist, List.Sublist.refl _⟩

theorem shrinks_closeInside (outer bound : Nat) (walk : Walk) :
    (walk.closeInside outer bound).blocks.Shrinks walk.blocks := by
  induction bound generalizing walk with
  | zero => exact walk.blocks.shrinks_refl
  | succ bound ih =>
      unfold closeInside
      split
      · exact walk.blocks.shrinks_refl
      · split
        · exact walk.blocks.shrinks_refl
        · apply (ih _).trans
          apply (shrinks_close ..).trans
          exact ⟨List.eraseP_sublist, List.Sublist.refl _⟩

theorem shrinks_closeDue (horizon : Horizon) (bound : Nat) (walk : Walk) :
    (walk.closeDue horizon bound).blocks.Shrinks walk.blocks := by
  induction bound generalizing walk with
  | zero => exact walk.blocks.shrinks_refl
  | succ bound ih =>
      unfold closeDue
      split
      · rename_i marker rest htaken
        exact (ih _).trans (shrinks_closeTaken htaken)
      · split
        · exact walk.blocks.shrinks_refl
        · exact (ih _).trans (shrinks_closeInside ..)

theorem shrinks_dropIf (walk : Walk) : walk.dropIf.blocks.Shrinks walk.blocks := by
  unfold dropIf
  split
  · split
    · exact (Blocks.shrinks_leave _ _).trans ⟨List.eraseP_sublist, List.Sublist.refl _⟩
    · exact walk.blocks.shrinks_refl
  · exact walk.blocks.shrinks_refl

/-- Without ends that are due nothing closes. -/
theorem closeDue_of_none {walk : Walk} {horizon : Horizon}
    (h : ∀ m ∈ walk.blocks.pending, m.side = .closing → horizon.reaches m.position = false)
    (bound : Nat) : walk.closeDue horizon bound = walk := by
  have htake : walk.blocks.takeEnd? horizon = none := by
    cases htaken : walk.blocks.takeEnd? horizon with
    | none => rfl
    | some taken =>
        obtain ⟨top, outer, -, hmem, -, hside, hreaches, -⟩ := Blocks.takeEnd?_eq_some htaken
        rw [h _ hmem hside] at hreaches
        cases hreaches
  have hblocked : walk.blocks.blockedEnd? horizon = none := by
    refine List.find?_eq_none.2 fun id _ hany => ?_
    obtain ⟨m, hm, hreaches⟩ := (Option.any_eq_true ..).1 hany
    have hend := List.find?_some hm
    simp only [Blocks.isEndOf, Bool.and_eq_true, beq_iff_eq] at hend
    rw [h m (List.mem_of_find?_eq_some hm) hend.2] at hreaches
    cases hreaches
  cases bound with
  | zero => rfl
  | succ bound => simp only [Walk.closeDue, htake, hblocked]

/-!
### Opening
-/

/-- A begin that opens a block of its own. -/
theorem enter_of_kind (walk : Walk) {marker : Marker} (hbreak : marker.kind ≠ .switchBreak)
    (helse : marker.kind ≠ .elseBlock) :
    walk.enter marker = { walk.emit (.opened marker.block (marker.text.getD "")) with
      blocks := walk.blocks.enter marker } := by
  unfold Walk.enter
  split
  · exact absurd ‹_› hbreak
  · exact absurd ‹_› helse
  · rfl

/-- A block that is open after a begin has taken effect was open before, or it is the block of the begin. -/
theorem mem_chain_enter {walk : Walk} {marker : Marker} {b : OpenBlock} (hb : b ∈ (walk.enter marker).blocks.chain) :
    b ∈ walk.blocks.chain ∨ (b = marker.block ∧ marker.kind ≠ .switchBreak) := by
  unfold enter at hb
  split at hb
  case h_1 => exact Or.inl hb
  case h_2 hkind =>
    rcases List.mem_cons.1 hb with rfl | hb
    · exact Or.inr ⟨rfl, by rw [hkind]; decide⟩
    · exact Or.inl (walk.shrinks_dropIf.2.subset hb)
  case h_3 hbreak _ =>
    rcases List.mem_cons.1 hb with rfl | hb
    · exact Or.inr ⟨rfl, hbreak⟩
    · exact Or.inl hb

/-- Begins that take effect one after the other take nothing else out of the queue, and open no other blocks. -/
theorem foldl_enter_pending (markers : List Marker) (walk : Walk) :
    (markers.foldl Walk.enter walk).blocks.pending.Sublist walk.blocks.pending := by
  induction markers generalizing walk with
  | nil => exact List.Sublist.refl _
  | cons marker rest ih => exact (ih _).trans (enter_pending walk marker)

theorem mem_chain_foldl_enter {markers : List Marker} {walk : Walk} {b : OpenBlock}
    (hb : b ∈ (markers.foldl enter walk).blocks.chain) :
    b ∈ walk.blocks.chain ∨ ∃ m ∈ markers, m.kind ≠ .switchBreak ∧ b = m.block := by
  induction markers generalizing walk with
  | nil => exact Or.inl hb
  | cons marker rest ih =>
      rcases ih hb with hb | ⟨m, hm, hrest⟩
      · rcases mem_chain_enter hb with hb | ⟨hblock, hkind⟩
        · exact Or.inl hb
        · exact Or.inr ⟨marker, List.mem_cons_self .., hkind, hblock⟩
      · exact Or.inr ⟨m, List.mem_cons_of_mem _ hm, hrest⟩

/-- The walk with another queue. -/
def withQueue (walk : Walk) (pending : List Marker) : Walk := { walk with blocks := { walk.blocks with pending } }

/-- Begins of loops do not look at the queue. -/
theorem foldl_enter_withQueue {markers : List Marker} (h : ∀ m ∈ markers, m.kind = .loop) (walk : Walk)
    (pending : List Marker) :
    markers.foldl Walk.enter (walk.withQueue pending) = (markers.foldl Walk.enter walk).withQueue pending := by
  induction markers generalizing walk with
  | nil => rfl
  | cons marker rest ih =>
      have hkind := h marker (List.mem_cons_self ..)
      rw [List.foldl_cons, List.foldl_cons, ← ih fun m hm => h m (List.mem_cons_of_mem _ hm),
        enter_of_kind _ (by simp [hkind]) (by simp [hkind]), enter_of_kind walk (by simp [hkind]) (by simp [hkind])]
      rfl

/-- What takes effect leaves the queue and adds nothing to it. -/
theorem openDue_pending (walk : Walk) (horizon : Horizon) (deferred : Bool) :
    (walk.openDue horizon deferred).blocks.pending.Sublist
      (walk.blocks.pending.filter fun m => !Blocks.isDue horizon deferred m) := by
  rw [openDue_eq, Blocks.takeBegins_rest]
  exact foldl_enter_pending _ _

theorem mem_chain_openDue {walk : Walk} {horizon : Horizon} {deferred : Bool} {b : OpenBlock}
    (hb : b ∈ (walk.openDue horizon deferred).blocks.chain) :
    b ∈ walk.blocks.chain ∨
      ∃ m ∈ walk.blocks.pending, m.side = .opening ∧ m.kind ≠ .switchBreak ∧ b = m.block := by
  rw [openDue_eq] at hb
  rcases mem_chain_foldl_enter hb with hb | ⟨m, hm, hkind, hblock⟩
  · rw [Blocks.takeBegins_rest] at hb
    exact Or.inl hb
  · rw [Blocks.mem_takeBegins] at hm
    exact Or.inr ⟨m, hm.1, hm.2.1, hkind, hblock⟩

/-- Between instructions only loops open. -/
theorem Settled.kind_of_mem_takeBegins {walk : Walk} (h : walk.Settled) {horizon : Horizon} {deferred : Bool}
    {m : Marker} (hm : m ∈ (walk.blocks.takeBegins horizon deferred).1) : m.kind = .loop := by
  obtain ⟨hpending, hside, -⟩ := Blocks.mem_takeBegins.1 hm
  exact (h.begins m (List.mem_filter.2 ⟨hpending, by rw [hside]; rfl⟩)).2

/-- Loops that open leave the rest of the queue as it is, all ends among it. -/
theorem Settled.openDue_eq_withQueue {walk : Walk} (h : walk.Settled) (horizon : Horizon) (deferred : Bool) :
    walk.openDue horizon deferred =
      ((walk.blocks.takeBegins horizon deferred).1.foldl Walk.enter walk).withQueue
        (walk.blocks.pending.filter fun m => !Blocks.isDue horizon deferred m) := by
  rw [openDue_eq, Blocks.takeBegins_rest, ← foldl_enter_withQueue fun m hm => h.kind_of_mem_takeBegins hm]
  rfl

theorem Settled.end_mem_openDue {walk : Walk} (h : walk.Settled) {m : Marker} (hm : m ∈ walk.blocks.pending)
    (hside : m.side = .closing) (horizon : Horizon) (deferred : Bool) :
    m ∈ (walk.openDue horizon deferred).blocks.pending := by
  rw [h.openDue_eq_withQueue]
  exact List.mem_filter.2 ⟨hm, by rw [Blocks.isDue_of_closing hside]; rfl⟩

/-- Without begins that are due nothing opens. -/
theorem openDue_of_none {walk : Walk} {horizon : Horizon} {deferred : Bool}
    (h : ∀ m ∈ walk.blocks.pending, Blocks.isDue horizon deferred m = false) :
    walk.openDue horizon deferred = walk := by
  have hready : walk.blocks.pending.filter (Blocks.isDue horizon deferred) = [] :=
    List.filter_eq_nil_iff.2 fun m hm => by simp [h m hm]
  have hwaiting : (walk.blocks.takeBegins horizon deferred).2 = walk.blocks := by
    rw [Blocks.takeBegins_rest, List.filter_eq_self.2 fun m hm => by simp [h m hm]]
  have hmarkers : (walk.blocks.takeBegins horizon deferred).1 = [] :=
    List.Perm.eq_nil (hready ▸ Blocks.takeBegins_perm walk.blocks horizon deferred)
  rw [openDue_eq, hmarkers, hwaiting]
  rfl

/-!
### After an instruction
-/

/-- Without plain begins that are due, ends come first. -/
theorem reconcile_of_no_begin {walk : Walk} {cursor : Nat}
    (h : ∀ m ∈ walk.blocks.pending, Blocks.isDue (.upTo cursor) false m = false) :
    walk.reconcile cursor =
      (walk.closeDue (.upTo cursor) walk.blocks.chain.length).openDue (.upTo cursor) true := by
  unfold Walk.reconcile
  rw [openDue_of_none h]

/-- Nothing happens at a position before every queued marker. -/
theorem reconcile_of_quiet {walk : Walk} {cursor : Nat}
    (h : ∀ m ∈ walk.blocks.pending, cursor < m.position) : walk.reconcile cursor = walk := by
  rw [reconcile_of_no_begin fun m hm => Blocks.isDue_of_lt (h m hm),
    closeDue_of_none fun m hm _ => by simp [Horizon.reaches, h m hm],
    openDue_of_none fun m hm => Blocks.isDue_of_lt (h m hm)]

/-- What is queued after markers have taken effect was queued before. -/
theorem mem_pending_reconcile {walk : Walk} {cursor : Nat} {m : Marker}
    (hm : m ∈ (walk.reconcile cursor).blocks.pending) : m ∈ walk.blocks.pending := by
  have hfirst := (openDue_pending walk (.upTo cursor) false).trans List.filter_sublist
  have hlast := (openDue_pending _ (.upTo cursor) true).subset hm
  exact hfirst.subset ((shrinks_closeDue ..).1.subset (List.mem_of_mem_filter hlast))

/-- A block that is open after markers have taken effect was open before, or its begin was queued. -/
theorem mem_chain_reconcile {walk : Walk} {cursor : Nat} {b : OpenBlock}
    (hb : b ∈ (walk.reconcile cursor).blocks.chain) :
    b ∈ walk.blocks.chain ∨
      ∃ m ∈ walk.blocks.pending, m.side = .opening ∧ m.kind ≠ .switchBreak ∧ b = m.block := by
  have hopened := (openDue_pending walk (.upTo cursor) false).trans List.filter_sublist
  have hshrinks := shrinks_closeDue (.upTo cursor) (walk.openDue (.upTo cursor) false).blocks.chain.length
    (walk.openDue (.upTo cursor) false)
  rcases mem_chain_openDue hb with hb | ⟨m, hm, hrest⟩
  · exact mem_chain_openDue (hshrinks.2.subset hb)
  · exact Or.inr ⟨m, hopened.subset (hshrinks.1.subset hm), hrest⟩

end Walk

end ScriptBytecode
