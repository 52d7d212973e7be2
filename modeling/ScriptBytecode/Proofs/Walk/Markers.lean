/-
Module: ScriptBytecode.Proofs.Walk.Markers
Purpose: No marker of a walk is overdue, duplicated or orphaned. After the markers that are due at a cursor have taken
  effect, all that are queued lie past the cursor, every queued end belongs to an open block, and no block has two.
  The ends that instructions queue later, the `until` of a `do` loop and the end of a `foreach`, are due at once; this
  and the tiling of the decoded instructions keep a block from getting a second end. Main statement: the queue is
  tidy after every instruction of every walk over a decoded body, and empty at its end.
Main exports: Blocks.Tidy, Blocks.Balanced, Walk.Tended, Poised.upToDate_reconcile, Setting.upToDate_walkTo,
  walk_tidy
-/
import ScriptBytecode.Proofs.Decoding.Partition
import ScriptBytecode.Proofs.Walk.Remainder

namespace ScriptBytecode

namespace Blocks

/-- The queued ends of a block. -/
def ends (blocks : Blocks) (id : Nat) : List Marker := blocks.pending.filter (isEndOf id)

/-- The queue once the markers that are due at a cursor have taken effect. -/
structure Tidy (blocks : Blocks) (cursor : Nat) : Prop where
  /-- No marker is overdue. -/
  ahead : ∀ m ∈ blocks.pending, cursor < m.position
  /-- Every end belongs to an open block. -/
  owned : ∀ m ∈ blocks.pending, m.side = .closing → ∃ b ∈ blocks.chain, b.id = m.id
  /-- No block has two ends. -/
  single : ∀ b ∈ blocks.chain, (blocks.ends b.id).length ≤ 1
  /-- Open blocks have different numbers. -/
  distinct : (blocks.chain.map (·.id)).Nodup

/-- What the queue holds while markers take effect. Every end belongs to an open block or to one of `begins`, which are
    still to be entered. A loop that has a queued end was created before the cursor: the end of a `do` loop is queued
    by its creator, so a loop that the instruction at the cursor created has none yet. -/
structure Balanced (blocks : Blocks) (begins : List Marker) (cursor : Nat) : Prop where
  owner : ∀ m ∈ blocks.pending, m.side = .closing →
    (∃ b ∈ blocks.chain, b.id = m.id ∧ (b.kind = .loop → b.creator < cursor)) ∨
      ∃ start ∈ begins, start.id = m.id ∧ start.kind ≠ .switchBreak ∧ start.creator < cursor
  single : ∀ id, (blocks.ends id).length ≤ 1
  /-- A `do` loop begins no later than the jump that ends it. -/
  loops : ∀ m ∈ blocks.openings, m.deferred = true → m.position ≤ m.creator
  /-- The end of a `foreach` is due as soon as it is queued. -/
  forEach : ∀ m ∈ blocks.pending, m.side = .closing → m.kind = .forEach → m.position ≤ cursor

theorem isEndOf_iff {id : Nat} {m : Marker} : isEndOf id m = true ↔ m.id = id ∧ m.side = .closing := by
  simp [isEndOf]

/-- Two queued ends of one block are the same. -/
theorem Balanced.eq_of_mem_ends {blocks : Blocks} {begins : List Marker} {cursor : Nat}
    (h : blocks.Balanced begins cursor) {id : Nat} {m m' : Marker} (hm : m ∈ blocks.ends id)
    (hm' : m' ∈ blocks.ends id) : m = m' := by
  have hsingle := h.single id
  generalize blocks.ends id = found at hm hm' hsingle
  rcases found with - | ⟨only, - | ⟨second, rest⟩⟩
  · cases hm
  · rw [List.mem_singleton.1 hm, List.mem_singleton.1 hm']
  · simp at hsingle

/-- Once a queued end of a block is taken out, the block has none. -/
theorem not_isEndOf_of_mem_eraseP {pending : List Marker} {id : Nat} {p : Marker → Bool}
    (hsingle : (pending.filter (isEndOf id)).length ≤ 1) (hp : ∀ m, p m = true → isEndOf id m = true)
    (htaken : ∃ m ∈ pending, p m = true) : ∀ m ∈ pending.eraseP p, isEndOf id m = false := by
  obtain ⟨m, hm, hpm⟩ := htaken
  obtain ⟨taken, before, after, -, htaken, rfl, herase⟩ := List.exists_of_eraseP hm hpm
  rw [List.filter_append, List.filter_cons_of_pos (hp taken htaken), List.length_append,
    List.length_cons] at hsingle
  have hbefore : before.filter (isEndOf id) = [] := List.length_eq_zero_iff.1 (by omega)
  have hafter : after.filter (isEndOf id) = [] := List.length_eq_zero_iff.1 (by omega)
  intro m hm
  rw [herase, List.mem_append] at hm
  rw [List.filter_eq_nil_iff] at hbefore hafter
  rcases hm with hm | hm
  · exact Bool.eq_false_iff.2 (hbefore m hm)
  · exact Bool.eq_false_iff.2 (hafter m hm)

/-- Once the end of a block is taken back, the block has none. -/
theorem not_isEndOf_of_mem_cancel {pending : List Marker} {id : Nat}
    (hsingle : (pending.filter (isEndOf id)).length ≤ 1) :
    ∀ m ∈ pending.eraseP (isEndOf id), isEndOf id m = false := by
  by_cases hsome : ∃ m ∈ pending, isEndOf id m = true
  · exact not_isEndOf_of_mem_eraseP hsingle (fun _ h => h) hsome
  · intro m hm
    rw [Bool.eq_false_iff]
    intro hend
    exact hsome ⟨m, List.mem_of_mem_eraseP hm, hend⟩

namespace Balanced

variable {blocks : Blocks} {begins : List Marker} {cursor : Nat}

/-- The queue stays balanced while the cursor moves on. -/
theorem mono (h : blocks.Balanced begins cursor) {later : Nat} (hcursor : cursor ≤ later) :
    blocks.Balanced begins later where
  owner m hm hside := by
    rcases h.owner m hm hside with ⟨b, hb, hid, hcreator⟩ | ⟨start, hstart, hid, hkind, hcreator⟩
    · exact Or.inl ⟨b, hb, hid, fun hloop => Nat.lt_of_lt_of_le (hcreator hloop) hcursor⟩
    · exact Or.inr ⟨start, hstart, hid, hkind, Nat.lt_of_lt_of_le hcreator hcursor⟩
  single := h.single
  loops := h.loops
  forEach m hm hside hkind := Nat.le_trans (h.forEach m hm hside hkind) hcursor

/-- More begins may be waiting than own an end. -/
theorem weaken (h : blocks.Balanced [] cursor) (begins : List Marker) :
    blocks.Balanced begins cursor where
  owner m hm hside := (h.owner m hm hside).imp_right fun ⟨_, hstart, _⟩ => nomatch hstart
  single := h.single
  loops := h.loops
  forEach := h.forEach

/-- The innermost block is left together with its end. -/
theorem leave (h : blocks.Balanced begins cursor) {pending : List Marker} {top : OpenBlock}
    {outer : List OpenBlock} (hpending : pending.Sublist blocks.pending)
    (hchain : blocks.chain = top :: outer) (hnone : ∀ m ∈ pending, isEndOf top.id m = false) :
    ({ blocks with pending, chain := outer } : Blocks).Balanced begins cursor where
  owner m hm hside := by
    rcases h.owner m (hpending.subset hm) hside with ⟨b, hb, hid, hcreator⟩ | hbegin
    · rw [hchain, List.mem_cons] at hb
      rcases hb with rfl | hb
      · have hend := isEndOf_iff.2 ⟨hid.symm, hside⟩
        rw [hnone m hm] at hend
        cases hend
      · exact Or.inl ⟨b, hb, hid, hcreator⟩
    · exact Or.inr hbegin
  single id := Nat.le_trans (hpending.filter _).length_le (h.single id)
  loops m hm := h.loops m ((hpending.filter _).subset hm)
  forEach m hm := h.forEach m (hpending.subset hm)

/-- A begin that was taken is entered. -/
theorem enter {marker : Marker} (h : blocks.Balanced (marker :: begins) cursor) :
    (blocks.enter marker).Balanced begins cursor where
  owner m hm hside := by
    rcases h.owner m hm hside with ⟨b, hb, hid, hcreator⟩ | ⟨start, hstart, hid, hkind, hcreator⟩
    · exact Or.inl ⟨b, List.mem_cons_of_mem _ hb, hid, hcreator⟩
    · rcases List.mem_cons.1 hstart with rfl | hstart
      · exact Or.inl ⟨start.block, List.mem_cons_self .., hid, fun _ => hcreator⟩
      · exact Or.inr ⟨start, hstart, hid, hkind, hcreator⟩
  single := h.single
  loops := h.loops
  forEach := h.forEach

/-- A `break` opens no block, so no end belongs to it. -/
theorem skip {marker : Marker} (h : blocks.Balanced (marker :: begins) cursor)
    (hbreak : marker.kind = .switchBreak) : blocks.Balanced begins cursor where
  owner m hm hside := by
    rcases h.owner m hm hside with hopen | ⟨start, hstart, hid, hkind, hcreator⟩
    · exact Or.inl hopen
    · rcases List.mem_cons.1 hstart with rfl | hstart
      · exact absurd hbreak hkind
      · exact Or.inr ⟨start, hstart, hid, hkind, hcreator⟩
  single := h.single
  loops := h.loops
  forEach := h.forEach

/-- Markers may leave the queue. -/
theorem shrink (h : blocks.Balanced begins cursor) {pending : List Marker}
    (hpending : pending.Sublist blocks.pending) :
    ({ blocks with pending } : Blocks).Balanced begins cursor where
  owner m hm hside := h.owner m (hpending.subset hm) hside
  single id := Nat.le_trans (hpending.filter _).length_le (h.single id)
  loops m hm := h.loops m ((hpending.filter _).subset hm)
  forEach m hm := h.forEach m (hpending.subset hm)

theorem takeBegins (h : blocks.Balanced begins cursor) (horizon : Horizon) (deferred : Bool) :
    (blocks.takeBegins horizon deferred).2.Balanced begins cursor := by
  rw [takeBegins_rest]
  exact h.shrink List.filter_sublist

/-- When the innermost block has no end that is due, and no other block has one, no end is due. -/
theorem not_reaches (h : blocks.Balanced [] cursor) {horizon : Horizon}
    (htake : blocks.takeEnd? horizon = none) (hblocked : blocks.blockedEnd? horizon = none) :
    ∀ m ∈ blocks.pending, m.side = .closing → horizon.reaches m.position = false := by
  intro m hm hside
  rcases h.owner m hm hside with ⟨b, hb, hid, -⟩ | ⟨start, hstart, -⟩
  · obtain ⟨top, outer, hchain⟩ : ∃ top outer, blocks.chain = top :: outer :=
      List.exists_cons_of_ne_nil (List.ne_nil_of_mem hb)
    rw [hchain, List.mem_cons] at hb
    rw [Bool.eq_false_iff]
    intro hdue
    have hend : isEndOf b.id m = true := isEndOf_iff.2 ⟨hid.symm, hside⟩
    rcases hb with rfl | hb
    · rw [takeEnd?_eq_none htake hchain m hm hend] at hdue
      cases hdue
    · rw [blockedEnd?, hchain, List.tail_cons, List.find?_eq_none] at hblocked
      have hidle := hblocked b.id (List.mem_map_of_mem (List.mem_reverse.2 hb))
      cases hfind : blocks.pendingEnd? b.id with
      | none =>
          have := List.find?_eq_none.1 hfind m hm
          exact this hend
      | some found =>
          have hfound : found ∈ blocks.ends b.id :=
            List.mem_filter.2 ⟨List.mem_of_find?_eq_some hfind, List.find?_some hfind⟩
          rw [hfind, h.eq_of_mem_ends hfound (List.mem_filter.2 ⟨hm, hend⟩), Option.any_some] at hidle
          exact hidle hdue
  · cases hstart

end Balanced

/-- A block whose end is due inside other blocks is not the innermost one. -/
theorem blockedEnd?_eq_some {blocks : Blocks} {horizon : Horizon} {id : Nat}
    (h : blocks.blockedEnd? horizon = some id) :
    ∃ top outer, blocks.chain = top :: outer ∧ id ∈ outer.map (·.id) := by
  have hmem := List.mem_of_find?_eq_some h
  obtain ⟨b, hb, rfl⟩ := List.mem_map.1 hmem
  rw [List.mem_reverse] at hb
  cases hchain : blocks.chain with
  | nil =>
      rw [hchain] at hb
      cases hb
  | cons top outer =>
      rw [hchain] at hb
      exact ⟨top, outer, rfl, List.mem_map_of_mem hb⟩

end Blocks

namespace Walk

/-- A settled walk whose queue is balanced. -/
structure Tended (walk : Walk) (cursor : Nat) : Prop extends Settled walk where
  balanced : walk.blocks.Balanced [] cursor

/-!
### Closing
-/

/-- Closing the innermost block after its end has left the queue. -/
theorem Tended.close {walk : Walk} {cursor : Nat} (h : walk.Tended cursor) {pending : List Marker}
    {top : OpenBlock} {outer : List OpenBlock} (hpending : pending.Sublist walk.blocks.pending)
    (hchain : walk.blocks.chain = top :: outer)
    (hnone : ∀ m ∈ pending, Blocks.isEndOf top.id m = false) (footer : Option String) :
    Tended (Walk.close { walk with blocks := { walk.blocks with pending } } top.kind top.id footer) cursor ∧
      (Walk.close { walk with blocks := { walk.blocks with pending } } top.kind top.id footer).blocks =
        { walk.blocks with pending, chain := outer } := by
  obtain ⟨hsettled, hblocks⟩ := h.toSettled.close hpending hchain footer
  constructor
  · constructor
    · exact hsettled
    · rw [hblocks]
      exact h.balanced.leave hpending hchain hnone
  · exact hblocks

/-- The end that is due and its block go together. -/
theorem Tended.closeTaken {walk : Walk} {cursor : Nat} (h : walk.Tended cursor) {horizon : Horizon}
    {marker : Marker} {rest : Blocks} (htaken : walk.blocks.takeEnd? horizon = some (marker, rest)) :
    Tended (Walk.close { walk with blocks := rest } marker.kind marker.id marker.text) cursor ∧
      ∃ pending outer, pending.Sublist walk.blocks.pending ∧ outer.length < walk.blocks.chain.length ∧
        (Walk.close { walk with blocks := rest } marker.kind marker.id marker.text).blocks =
          { walk.blocks with pending, chain := outer } := by
  obtain ⟨top, outer, hchain, hmem, hid, hside, hdue, rfl⟩ := Blocks.takeEnd?_eq_some htaken
  have hkind : top.kind = marker.kind :=
    (h.numbered.ends marker hmem hside).chain top (by simp [hchain]) hid.symm
  have hready : (Blocks.isEndOf top.id marker && horizon.reaches marker.position) = true := by
    rw [Blocks.isEndOf_iff.2 ⟨hid, hside⟩, hdue]
    rfl
  have hnone := Blocks.not_isEndOf_of_mem_eraseP
    (p := fun m => Blocks.isEndOf top.id m && horizon.reaches m.position) (h.balanced.single top.id)
    (fun m hm => (Bool.and_eq_true_iff.1 hm).1) ⟨marker, hmem, hready⟩
  rw [← hkind, hid]
  obtain ⟨hclosed, hblocks⟩ := h.close List.eraseP_sublist hchain hnone marker.text
  constructor
  · exact hclosed
  · exact ⟨_, outer, List.eraseP_sublist, hchain ▸ Nat.lt_succ_self _, hblocks⟩

/-- Blocks inside another one close together with their ends. The innermost block is closed unless it is that one. -/
theorem Tended.closeInside {walk : Walk} {cursor : Nat} (h : walk.Tended cursor) (outer bound : Nat) :
    (walk.closeInside outer bound).Tended cursor ∧
      (walk.closeInside outer bound).blocks.chain.length ≤ walk.blocks.chain.length ∧
      (0 < bound → walk.blocks.innermost?.any (·.id != outer) = true →
        (walk.closeInside outer bound).blocks.chain.length < walk.blocks.chain.length) := by
  induction bound generalizing walk with
  | zero => exact ⟨h, Nat.le_refl _, fun hbound => absurd hbound (Nat.lt_irrefl 0)⟩
  | succ bound ih =>
      unfold Walk.closeInside
      split
      · rename_i hempty
        exact ⟨h, Nat.le_refl _, fun _ hinner => by rw [hempty] at hinner; cases hinner⟩
      · rename_i top htop
        split
        · rename_i htarget
          exact ⟨h, Nat.le_refl _, fun _ hinner => by simp [htop, htarget] at hinner⟩
        · obtain ⟨rest, hchain⟩ := List.head?_eq_some_iff.1 htop
          have hnone := Blocks.not_isEndOf_of_mem_cancel (h.balanced.single top.id)
          obtain ⟨hclosed, hblocks⟩ := h.close List.eraseP_sublist hchain hnone
            ((walk.blocks.cancelEnd top.id).1.bind (·.text))
          obtain ⟨hrest, hlength, -⟩ := ih hclosed
          rw [hblocks] at hlength
          have hshorter := Nat.lt_of_le_of_lt hlength
            (show rest.length < walk.blocks.chain.length from hchain ▸ Nat.lt_succ_self _)
          exact ⟨hrest, Nat.le_of_lt hshorter, fun _ _ => hshorter⟩

/-- Every end that is due takes effect: a round of `closeDue` shortens the chain, and in an empty chain no end has an
    owner. -/
theorem Tended.closeDue {walk : Walk} {cursor bound : Nat} (h : walk.Tended cursor)
    (hbound : walk.blocks.chain.length ≤ bound) :
    (walk.closeDue (.upTo cursor) bound).Tended cursor ∧
      ∀ m ∈ (walk.closeDue (.upTo cursor) bound).blocks.pending, m.side = .closing →
        cursor < m.position := by
  induction bound generalizing walk with
  | zero =>
      constructor
      · exact h
      · intro m hm hside
        have hempty := List.length_eq_zero_iff.1 (Nat.le_zero.1 hbound)
        rcases h.balanced.owner m hm hside with ⟨b, hb, -⟩ | ⟨start, hstart, -⟩
        · rw [hempty] at hb
          cases hb
        · cases hstart
  | succ bound ih =>
      unfold Walk.closeDue
      split
      · rename_i marker rest htaken
        obtain ⟨hclosed, pending, outer, -, hshorter, hblocks⟩ := h.closeTaken htaken
        apply ih hclosed
        rw [hblocks]
        exact Nat.le_of_lt_succ (Nat.lt_of_lt_of_le hshorter hbound)
      · rename_i htake
        split
        · rename_i hblocked
          constructor
          · exact h
          · intro m hm hside
            have hlate := h.balanced.not_reaches htake hblocked m hm hside
            simpa [Horizon.reaches] using hlate
        · rename_i outer hblocked
          obtain ⟨top, rest, hchain, hmem⟩ := Blocks.blockedEnd?_eq_some hblocked
          obtain ⟨hclosed, -, hshorter⟩ := h.closeInside outer walk.blocks.chain.length
          have hne : top.id ≠ outer := by
            intro heq
            have hnodup := h.numbered.chain_nodup
            rw [hchain, List.map_cons, heq] at hnodup
            exact (List.nodup_cons.1 hnodup).1 hmem
          have hinner : walk.blocks.innermost?.any (·.id != outer) = true := by
            simp [Blocks.innermost?, hchain, hne]
          have hlength := hshorter (by simp [hchain]) hinner
          exact ih hclosed (by omega)

/-!
### Opening
-/

/-- A begin that was taken takes effect. -/
theorem balanced_enter {walk : Walk} {marker : Marker} {begins : List Marker} {cursor : Nat}
    (h : walk.blocks.Balanced (marker :: begins) cursor)
    (helse : marker.kind = .elseBlock → InsideIf walk.blocks) :
    (walk.enter marker).blocks.Balanced begins cursor := by
  unfold Walk.enter
  split
  case h_1 hkind => exact h.skip hkind
  case h_2 hkind =>
    obtain ⟨top, htop, hif⟩ := helse hkind
    obtain ⟨outer, hchain⟩ := List.head?_eq_some_iff.1 htop
    rw [dropIf_of_if walk hchain hif]
    exact (h.leave List.eraseP_sublist hchain
      (Blocks.not_isEndOf_of_mem_cancel (h.single top.id))).enter
  case h_3 => exact h.enter

/-- The begins of `do` loops have no ends yet, so any that are due may be entered. -/
theorem balanced_foldl_enter {markers : List Marker} {walk : Walk} {cursor : Nat}
    (h : walk.blocks.Balanced markers cursor) (hloops : ∀ m ∈ markers, m.kind = .loop) :
    (markers.foldl Walk.enter walk).blocks.Balanced [] cursor := by
  induction markers generalizing walk with
  | nil => exact h
  | cons marker rest ih =>
      have hkind := hloops marker (List.mem_cons_self ..)
      apply ih
      · exact balanced_enter h fun helse => by rw [hkind] at helse; cases helse
      · exact fun m hm => hloops m (List.mem_cons_of_mem _ hm)

theorem Tended.openDue {walk : Walk} {cursor : Nat} (h : walk.Tended cursor) (horizon : Horizon)
    (deferred : Bool) : (walk.openDue horizon deferred).Tended cursor := by
  constructor
  · exact h.toSettled.openDue horizon deferred
  · rw [openDue_eq]
    apply balanced_foldl_enter
    · exact (h.balanced.takeBegins horizon deferred).weaken _
    · intro m hm
      rw [Blocks.mem_takeBegins] at hm
      exact (h.begins m (by simp [Blocks.openings, hm.1, hm.2.1])).2

/-- The begin that an instruction has queued takes effect at the end of the instruction. -/
theorem Poised.tended_openDue {walk : Walk} {cursor : Nat} (h : walk.Poised cursor)
    (hbalanced : walk.blocks.Balanced (walk.blocks.openings.filter (!·.deferred)) cursor) :
    (walk.openDue (.upTo cursor) false).Tended cursor := by
  constructor
  · exact h.openDue
  · have htaken := hbalanced.takeBegins (.upTo cursor) false
    have hchain : (walk.blocks.takeBegins (.upTo cursor) false).2.chain = walk.blocks.chain := by
      rw [Blocks.takeBegins_rest]
    rw [openDue_eq, h.takeBegins]
    rcases h.plain with hnone | ⟨m, hone, -, helse, -⟩
    · rw [hnone] at htaken ⊢
      exact htaken
    · rw [hone] at htaken ⊢
      apply balanced_enter htaken
      intro hkind
      obtain ⟨top, htop, hif⟩ := helse hkind
      exact ⟨top, by rwa [Blocks.innermost?, hchain], hif⟩

end Walk

/-!
### Queueing
-/

namespace Blocks.Balanced

variable {blocks : Blocks} {begins : List Marker} {cursor : Nat}

/-- A plain begin is queued. -/
theorem queueBegin (h : blocks.Balanced begins cursor) (kind : BlockKind) (position creator blockEnd : Nat)
    (text : Option String) :
    (blocks.queueBegin kind position creator blockEnd text false).2.Balanced begins cursor := by
  constructor
  · intro m hm hside
    rw [queueBegin_pending, List.mem_append, List.mem_singleton] at hm
    rcases hm with hm | rfl
    · exact h.owner m hm hside
    · cases hside
  · intro id
    have hends : (blocks.queueBegin kind position creator blockEnd text false).2.ends id = blocks.ends id := by
      simp [ends, isEndOf, newBegin]
    rw [hends]
    exact h.single id
  · intro m hm hdeferred
    simp only [openings, queueBegin_pending, List.filter_append, List.mem_append] at hm
    rcases hm with hm | hm
    · exact h.loops m hm hdeferred
    · obtain rfl := List.mem_singleton.1 (List.mem_of_mem_filter hm)
      cases hdeferred
  · intro m hm hside
    rw [queueBegin_pending, List.mem_append, List.mem_singleton] at hm
    rcases hm with hm | rfl
    · exact h.forEach m hm hside
    · cases hside

/-- The first end of a block is queued. -/
theorem queueEnd (h : blocks.Balanced begins cursor) {kind : BlockKind} {id position : Nat}
    (text : Option String)
    (howner : (∃ b ∈ blocks.chain, b.id = id ∧ (b.kind = .loop → b.creator < cursor)) ∨
      ∃ start ∈ begins, start.id = id ∧ start.kind ≠ .switchBreak ∧ start.creator < cursor)
    (hnone : ∀ m ∈ blocks.pending, m.side = .closing → m.id ≠ id)
    (hforEach : kind = .forEach → position ≤ cursor) :
    (blocks.queueEnd kind id position text).Balanced begins cursor := by
  rw [queueEnd_eq]
  constructor
  · intro m hm hside
    rw [List.mem_append, List.mem_singleton] at hm
    rcases hm with hm | rfl
    · exact h.owner m hm hside
    · exact howner
  · intro other
    have hold := h.single other
    rw [ends] at hold ⊢
    rw [List.filter_append, List.length_append]
    by_cases hother : other = id
    · have hempty : blocks.pending.filter (isEndOf other) = [] := by
        rw [List.filter_eq_nil_iff]
        intro m hm hend
        obtain ⟨hid, hside⟩ := isEndOf_iff.1 hend
        exact hnone m hm hside (hid.trans hother)
      rw [hempty, List.length_nil, Nat.zero_add]
      exact List.length_filter_le _ _
    · have hnew : [blocks.newEnd kind id position text].filter (isEndOf other) = [] := by
        rw [List.filter_eq_nil_iff]
        intro m hm hend
        obtain rfl := List.mem_singleton.1 hm
        exact hother (isEndOf_iff.1 hend).1.symm
      rw [hnew, List.length_nil, Nat.add_zero]
      exact hold
  · intro m hm
    exact h.loops m (openings_queueEnd blocks kind id position text ▸ hm)
  · intro m hm hside hkind
    rw [List.mem_append, List.mem_singleton] at hm
    rcases hm with hm | rfl
    · exact h.forEach m hm hside hkind
    · exact hforEach hkind

end Blocks.Balanced

namespace Walk

/-- All that was due at the cursor has taken effect, and no more. -/
structure UpToDate (walk : Walk) (cursor : Nat) : Prop extends Tended walk cursor where
  ahead : ∀ m ∈ walk.blocks.pending, cursor < m.position

/-- The loop that a jump back ends is open, and has no end yet. -/
theorem UpToDate.loop_of_creator {walk : Walk} {cursor id : Nat} (h : walk.UpToDate cursor)
    (hfound : walk.blocks.findByCreator? .loop cursor = some id) :
    (∃ b ∈ walk.blocks.chain, b.id = id ∧ b.creator = cursor) ∧
      ∀ m ∈ walk.blocks.pending, m.side = .closing → m.id ≠ id := by
  unfold Blocks.findByCreator? at hfound
  rcases Option.or_eq_some_iff.1 hfound with hopen | ⟨-, hqueued⟩
  · obtain ⟨b, hb, rfl⟩ := Option.map_eq_some_iff.1 hopen
    have hmem := List.mem_reverse.1 (List.mem_of_find?_eq_some hb)
    have hkind := List.find?_some hb
    simp only [Bool.and_eq_true, beq_iff_eq] at hkind
    constructor
    · exact ⟨b, hmem, rfl, hkind.2⟩
    · intro m hm hside hid
      rcases h.balanced.owner m hm hside with ⟨owner, howner, hsame, hcreator⟩ | ⟨start, hstart, -⟩
      · obtain rfl := h.numbered.eq_of_id howner hmem (hsame.trans hid)
        have := hcreator hkind.1
        omega
      · cases hstart
  · -- A begin that is still queued lies ahead, but that of this loop was due at the cursor or before.
    obtain ⟨m, hm, rfl⟩ := Option.map_eq_some_iff.1 hqueued
    have hmem := List.mem_of_find?_eq_some hm
    have hkind := List.find?_some hm
    simp only [Bool.and_eq_true, beq_iff_eq] at hkind
    have hopening : m ∈ walk.blocks.openings := by simp [Blocks.openings, hmem, hkind.2]
    have hlate := h.ahead m hmem
    have hearly := h.balanced.loops m hopening (h.begins m hopening).1
    omega

/-- Once the markers that are due have taken effect, no marker is overdue. -/
theorem Poised.upToDate_reconcile {walk : Walk} {cursor : Nat} (h : walk.Poised cursor)
    (hbalanced : walk.blocks.Balanced (walk.blocks.openings.filter (!·.deferred)) cursor) :
    (walk.reconcile cursor).UpToDate cursor := by
  obtain ⟨hclosed, hends⟩ := (h.tended_openDue hbalanced).closeDue (Nat.le_refl _)
  constructor
  · exact hclosed.openDue (.upTo cursor) true
  · intro m hm
    have hwaiting := (openDue_pending _ (.upTo cursor) true).subset hm
    rw [List.mem_filter] at hwaiting
    cases hside : m.side with
    | closing => exact hends m hwaiting.1 hside
    | opening =>
        -- A begin that is still queued is that of a `do` loop, and it is not due.
        have hdeferred := (hclosed.begins m (by simp [Blocks.openings, hwaiting.1, hside])).1
        simpa [Blocks.isDue, hside, hdeferred, Horizon.reaches] using hwaiting.2

/-- What an instruction queues belongs to an open block, or to a block that it begins. -/
theorem UpToDate.balanced_queued {walk : Walk} {i : Instruction} {blocks : Blocks}
    (h : walk.UpToDate i.position) (hqueued : Queued walk i blocks) (hsize : i.position < i.endPosition) :
    blocks.Balanced (blocks.openings.filter (!·.deferred)) i.endPosition := by
  have hold := h.balanced.mono (Nat.le_of_lt hsize)
  cases hqueued with
  | nothing => exact hold.weaken _
  | beginOnly stop header _ => exact (hold.queueBegin ..).weaken _
  | @block kind stop header _ hkind _ =>
      have hbegin := hold.queueBegin kind i.endPosition i.position stop header
      apply (hbegin.weaken _).queueEnd none
      · refine Or.inr ⟨walk.blocks.newBegin kind i.endPosition i.position stop header false, ?_, rfl, hkind.2, hsize⟩
        simp [Blocks.openings, Blocks.queueBlock, Blocks.queueEnd, Blocks.newBegin]
      · intro m hm hside hid
        rw [Blocks.queueBegin_pending, List.mem_append, List.mem_singleton] at hm
        rcases hm with hm | rfl
        · exact Nat.ne_of_lt (h.numbered.ends m hm hside).lt hid
        · cases hside
      · exact fun hforEach => absurd hforEach hkind.1
  | @untilEnd id footer hfound =>
      obtain ⟨⟨b, hb, hid, hcreator⟩, hnone⟩ := h.loop_of_creator hfound
      apply (hold.weaken _).queueEnd footer
      · exact Or.inl ⟨b, hb, hid, fun _ => hcreator ▸ hsize⟩
      · exact hnone
      · exact fun hforEach => by cases hforEach
  | @forEachEnd block hmem hkind =>
      apply (hold.weaken _).queueEnd none
      · exact Or.inl ⟨block, hmem, rfl, fun hloop => by rw [hkind] at hloop; cases hloop⟩
      · intro m hm hside hid
        have hsame := (h.numbered.ends m hm hside).chain block hmem hid.symm
        have hdue := h.balanced.forEach m hm hside (hsame ▸ hkind)
        have hlate := h.ahead m hm
        omega
      · exact fun _ => Nat.le_refl _

/-!
### The walk
-/

theorem writeLabel_blocks (walk : Walk) (position : Nat) :
    (walk.writeLabel position).blocks = walk.blocks := by
  unfold Walk.writeLabel
  split
  split <;> rfl

/-- Labels are no markers. -/
theorem UpToDate.writeLabel {walk : Walk} {cursor : Nat} (h : walk.UpToDate cursor) (position : Nat) :
    (walk.writeLabel position).UpToDate cursor := by
  have hblocks := writeLabel_blocks walk position
  exact ⟨⟨h.toSettled.writeLabel _, hblocks ▸ h.balanced⟩, hblocks ▸ h.ahead⟩

/-- A step from the position of an instruction leads to its end. -/
theorem upToDate_step {walk : Walk} {i : Instruction} (h : walk.UpToDate i.position)
    (hsize : i.position < i.endPosition) (setting : Setting) (index : Nat) :
    (walk.step setting i index).UpToDate i.endPosition := by
  obtain ⟨next, hstep, hpoised, hqueued⟩ := h.toSettled.step_eq_reconcile setting i index
  rw [hstep]
  exact hpoised.upToDate_reconcile ((h.writeLabel i.position).balanced_queued hqueued hsize)

/-- The jump back of a `do` loop does not lead past itself. -/
theorem le_of_isDoUntil {i : Instruction} {target : Nat} (h : i.isDoUntil = true)
    (htarget : i.jumpTarget? = some target) : target ≤ i.position := by
  unfold Instruction.isDoUntil at h
  split at h
  · rename_i htoken
    rw [Instruction.jumpTarget?, htoken] at htarget
    cases htarget
    exact of_decide_eq_true h
  · cases h

/-- What is queued before the first instruction is the begin of a `do` loop, made by the jump that ends it. -/
theorem mem_queueDoLoops {setting : Setting} {walk : Walk} (hempty : walk.blocks.pending = []) {m : Marker}
    (hm : m ∈ (walk.queueDoLoops setting).blocks.pending) :
    m.side = .opening ∧ m.kind = .loop ∧ m.deferred = true ∧
      ∃ i ∈ setting.body.instructions.toList, i.isDoUntil = true ∧ i.jumpTarget? = some m.position ∧
        m.creator = i.position ∧ m.blockEnd = i.endPosition := by
  have hqueue : ∀ (untils : List Instruction) (blocks : Blocks), m ∈ (untils.foldl queueDoLoop blocks).pending →
      m ∈ blocks.pending ∨ (m.side = .opening ∧ m.kind = .loop ∧ m.deferred = true ∧
        ∃ i ∈ untils, i.jumpTarget? = some m.position ∧ m.creator = i.position ∧ m.blockEnd = i.endPosition) := by
    intro untils
    induction untils with
    | nil => exact fun blocks hm => Or.inl hm
    | cons i rest ih =>
        intro blocks hm
        rcases ih _ hm with hm | ⟨hside, hkind, hdeferred, j, hj, hmade⟩
        · rw [queueDoLoop] at hm
          cases htarget : i.jumpTarget? with
          | none =>
              rw [htarget] at hm
              exact Or.inl hm
          | some target =>
              rw [htarget, Blocks.queueBegin_pending, List.mem_append, List.mem_singleton] at hm
              rcases hm with hm | rfl
              · exact Or.inl hm
              · exact Or.inr ⟨rfl, rfl, rfl, i, List.mem_cons_self .., htarget, rfl, rfl⟩
        · exact Or.inr ⟨hside, hkind, hdeferred, j, List.mem_cons_of_mem _ hj, hmade⟩
  rw [queueDoLoops_blocks] at hm
  rcases hqueue _ _ hm with hm | ⟨hside, hkind, hdeferred, i, hi, hmade⟩
  · rw [hempty] at hm
    cases hm
  · obtain ⟨hmem, huntil⟩ := List.mem_filter.1 hi
    exact ⟨hside, hkind, hdeferred, i, hmem, huntil, hmade⟩

/-- Before the first instruction only `do` loops are queued, none of which has an end. -/
theorem balanced_queueDoLoops {setting : Setting} {walk : Walk} (hempty : walk.blocks.pending = [])
    (begins : List Marker) : (walk.queueDoLoops setting).blocks.Balanced begins 0 := by
  have hopening : ∀ m ∈ (walk.queueDoLoops setting).blocks.pending, m.side ≠ .closing := by
    intro m hm hside
    rw [(mem_queueDoLoops hempty hm).1] at hside
    cases hside
  constructor
  · exact fun m hm hside => absurd hside (hopening m hm)
  · intro id
    rw [Blocks.ends, List.filter_eq_nil_iff.2]
    · exact Nat.zero_le _
    · exact fun m hm hend => hopening m hm (Blocks.isEndOf_iff.1 hend).2
  · intro m hm _
    obtain ⟨-, -, -, i, -, huntil, htarget, hcreator, -⟩ := mem_queueDoLoops hempty (List.mem_of_mem_filter hm)
    rw [hcreator]
    exact le_of_isDoUntil huntil htarget
  · exact fun m hm hside => absurd hside (hopening m hm)

theorem upToDate_prepare (setting : Setting) (seeds : List Nat) : (prepare setting seeds).UpToDate 0 :=
  ((settled_queueDoLoops setting seeds).poised 0).upToDate_reconcile (balanced_queueDoLoops rfl _)

theorem writeLastLabels_blocks (walk : Walk) (setting : Setting) :
    (walk.writeLastLabels setting).blocks = walk.blocks := by
  have hfold : ∀ (labels : List Label) (walk : Walk),
      (labels.foldl (fun walk label => walk.emit (.label label.name label.position)) walk).blocks =
        walk.blocks := by
    intro labels
    induction labels with
    | nil => exact fun _ => rfl
    | cons label rest ih => exact fun walk => ih _
  exact hfold _ _

/-- Begins all that is left to begin, and closes every block. -/
def closing (walk : Walk) : Walk :=
  let walk := walk.openDue .unbounded false
  let walk := walk.openDue .unbounded true
  closeAll walk.blocks.chain.length walk

/-- The last state of a walk but for the markers that are left. -/
def flush (setting : Setting) (walk : Walk) : Walk := (walk.writeLastLabels setting).closing

/-- Ending a walk drops the markers that are left. -/
theorem finish_eq_flush (setting : Setting) (walk : Walk) :
    walk.finish setting = { walk.flush setting with blocks := (walk.flush setting).blocks.drain.2 } :=
  rfl

theorem finish_events (setting : Setting) (walk : Walk) :
    (walk.finish setting).events = (walk.flush setting).events := rfl

/-- Closing everything takes no begin out of the queue and puts none into it. -/
theorem Tended.closeAll {walk : Walk} {cursor bound : Nat} (h : walk.Tended cursor)
    (hbound : walk.blocks.chain.length ≤ bound) :
    (walk.closeAll bound).Tended cursor ∧
      (walk.closeAll bound).blocks.pending.Sublist walk.blocks.pending := by
  induction bound generalizing walk with
  | zero => exact ⟨h, List.Sublist.refl _⟩
  | succ bound ih =>
      unfold Walk.closeAll
      split
      · rename_i marker rest htaken
        obtain ⟨hclosed, pending, outer, hpending, hshorter, hblocks⟩ := h.closeTaken htaken
        have hlength : outer.length ≤ bound := Nat.le_of_lt_succ (Nat.lt_of_lt_of_le hshorter hbound)
        obtain ⟨hrest, hsub⟩ := ih hclosed (hblocks ▸ hlength)
        rw [hblocks] at hsub
        exact ⟨hrest, hsub.trans hpending⟩
      · rename_i htake
        split
        · exact ⟨h, List.Sublist.refl _⟩
        · rename_i top htop
          obtain ⟨outer, hchain⟩ := List.head?_eq_some_iff.1 htop
          have hnone : ∀ m ∈ walk.blocks.pending, Blocks.isEndOf top.id m = false := by
            intro m hm
            rw [Bool.eq_false_iff]
            intro hend
            cases Blocks.takeEnd?_eq_none htake hchain m hm hend
          obtain ⟨hclosed, hblocks⟩ := h.close (List.Sublist.refl _) hchain hnone none
          rw [hchain, List.length_cons] at hbound
          obtain ⟨hrest, hsub⟩ := ih hclosed (hblocks ▸ Nat.le_of_succ_le_succ hbound)
          rw [hblocks] at hsub
          exact ⟨hrest, hsub⟩

/-- With every block closed and every begin entered, nothing is left in the queue. -/
theorem Tended.flush_pending {walk : Walk} {cursor : Nat} (h : walk.Tended cursor) (setting : Setting) :
    (walk.flush setting).blocks.pending = [] := by
  have hlabelled : (walk.writeLastLabels setting).Tended cursor := by
    constructor
    · exact h.toSettled.writeLastLabels setting
    · rw [writeLastLabels_blocks]
      exact h.balanced
  have hplain := hlabelled.openDue .unbounded false
  unfold Walk.flush Walk.closing
  dsimp only
  generalize (walk.writeLastLabels setting).openDue .unbounded false = plain at hplain ⊢
  have htended := hplain.openDue .unbounded true
  obtain ⟨hclosed, hsub⟩ := htended.closeAll (Nat.le_refl _)
  have hchain := (htended.toSettled.closeAll (Nat.le_refl _)).2
  apply List.eq_nil_iff_forall_not_mem.2
  intro m hm
  cases hside : m.side with
  | closing =>
      rcases hclosed.balanced.owner m hm hside with ⟨b, hb, -⟩ | ⟨start, hstart, -⟩
      · rw [hchain] at hb
        cases hb
      · cases hstart
  | opening =>
      have hwaiting := (openDue_pending _ .unbounded true).subset (hsub.subset hm)
      rw [List.mem_filter] at hwaiting
      have hdeferred := (hplain.begins m (by simp [Blocks.openings, hwaiting.1, hside])).1
      simp [Blocks.isDue, hside, hdeferred, Horizon.reaches] at hwaiting

end Walk

namespace Setting

theorem take_zipIdx {α : Type} (xs : List α) (first count : Nat) :
    (xs.zipIdx first).take count = (xs.take count).zipIdx first := by
  induction xs generalizing first count with
  | nil => simp
  | cons x rest ih =>
      cases count with
      | zero => rfl
      | succ count => rw [List.zipIdx_cons, List.take_succ_cons, List.take_succ_cons, List.zipIdx_cons, ih]

/-- Every step of a walk over a tiling starts where the walk stands. -/
theorem upToDate_foldl (setting : Setting) {position offset : Nat} {instructions : List Instruction}
    (htiles : Tiles position offset instructions) (first : Nat) {walk : Walk}
    (h : walk.UpToDate position) :
    ((instructions.zipIdx first).foldl (fun walk (i, index) => walk.step setting i index) walk).UpToDate
      ((instructions.getLast?.map (·.endPosition)).getD position) := by
  induction instructions generalizing position offset first walk with
  | nil => exact h
  | cons i rest ih =>
      obtain ⟨rfl, -, hsize, -, hrest⟩ := htiles
      have hstep := Walk.upToDate_step h (by unfold Instruction.endPosition; omega) setting first
      have hall := ih hrest (first + 1) hstep
      rw [List.zipIdx_cons, List.foldl_cons]
      cases rest with
      | nil => exact hall
      | cons second rest =>
          rw [List.getLast?_cons_cons]
          rw [List.getLast?_eq_some_getLast (List.cons_ne_nil _ _)] at hall ⊢
          exact hall

theorem upToDate_walkTo (setting : Setting) (htiles : Tiles 0 0 setting.body.instructions.toList)
    (seeds : List Nat) (count : Nat) :
    (setting.walkTo seeds count).UpToDate (setting.body.cursorAfter count) := by
  have hall := upToDate_foldl setting (htiles.take count) 0 (Walk.upToDate_prepare setting seeds)
  unfold walkTo Body.cursorAfter
  rwa [take_zipIdx]

end Setting

/-- After every instruction of a walk over a decoded body the queue is tidy, and at the end of the walk, when what is
    left in the queue is dropped, nothing is left in it. -/
theorem walk_tidy (source : Source) (dialect : Dialect) (words : Vocabulary) (scope : Scope)
    (suppressImplicitReturn : Bool) (seeds : List Nat) :
    let setting : Setting := ⟨source.decode dialect, words, scope, suppressImplicitReturn⟩
    let last := (setting.walkTo seeds setting.body.instructions.size).flush setting
    (∀ count, (setting.walkTo seeds count).blocks.Tidy (setting.body.cursorAfter count)) ∧
      setting.walk seeds = { last with blocks := last.blocks.drain.2 } ∧ last.blocks.drain.1 = [] := by
  intro setting last
  have htiles : Tiles 0 0 setting.body.instructions.toList := decode_tiles source dialect
  clear_value setting
  have hwalk := fun count => setting.upToDate_walkTo htiles seeds count
  have hempty := (hwalk setting.body.instructions.size).flush_pending setting
  refine ⟨fun count => ?_, ?_, ?_⟩
  · have h := hwalk count
    constructor
    · exact h.ahead
    · intro m hm hside
      rcases h.balanced.owner m hm hside with ⟨b, hb, hid, -⟩ | ⟨start, hstart, -⟩
      · exact ⟨b, hb, hid⟩
      · cases hstart
    · exact fun b _ => h.balanced.single b.id
    · exact h.numbered.chain_nodup
  · rw [setting.walk_eq_finish]
    exact Walk.finish_eq_flush ..
  · simp only [last, Blocks.drain, hempty]
    rfl

end ScriptBytecode
