/-
Module: ScriptBytecode.Proofs.Walk.Numbering
Purpose: Block numbers are never used twice. The begins that are queued, or taken from the queue and not yet entered,
  carry numbers of their own that no block has had before, and a queued end is of the kind of the block it ends.
  Every operation on blocks keeps this.
Main exports: Blocks.openings, Blocks.Fits, Blocks.Numbered, Blocks.isDue, Blocks.leave_innermost,
  Blocks.takeEnd?_eq_some
-/
import Mathlib.Data.List.Nodup
import ScriptBytecode.Block

namespace ScriptBytecode

namespace Blocks

/-- The begins among the queued markers. -/
def openings (blocks : Blocks) : List Marker := blocks.pending.filter (·.side == .opening)

/-- A number that has been given out, and whatever block bears it is of the given kind. `taken` are the begins that
    have left the queue and are still to be entered. -/
structure Fits (blocks : Blocks) (taken : List Marker) (kind : BlockKind) (id : Nat) : Prop where
  lt : id < blocks.nextId
  chain : ∀ b ∈ blocks.chain, b.id = id → b.kind = kind
  begins : ∀ m ∈ taken ++ blocks.openings, m.id = id → m.kind = kind

/-- Blocks are numbered apart. `used` are the numbers of the blocks that have been opened so far. -/
structure Numbered (blocks : Blocks) (taken : List Marker) (used : List Nat) : Prop where
  chain_nodup : (blocks.chain.map (·.id)).Nodup
  chain_used : ∀ b ∈ blocks.chain, b.id ∈ used
  used_nodup : used.Nodup
  used_lt : ∀ id ∈ used, id < blocks.nextId
  begins_nodup : ((taken ++ blocks.openings).map (·.id)).Nodup
  begins_new : ∀ m ∈ taken ++ blocks.openings, m.id ∉ used ∧ m.id < blocks.nextId
  ends : ∀ m ∈ blocks.pending, m.side = .closing → blocks.Fits taken m.kind m.id

/-- Two blocks of the chain with one number are the same. -/
theorem Numbered.eq_of_id {blocks : Blocks} {taken : List Marker} {used : List Nat}
    (h : blocks.Numbered taken used) {a b : OpenBlock} (ha : a ∈ blocks.chain)
    (hb : b ∈ blocks.chain) (hid : a.id = b.id) : a = b :=
  List.inj_on_of_nodup_map h.chain_nodup ha hb hid

/-- A block of the chain bears a number that fits its kind. -/
theorem Numbered.fits_of_mem {blocks : Blocks} {taken : List Marker} {used : List Nat}
    (h : blocks.Numbered taken used) {b : OpenBlock} (hb : b ∈ blocks.chain) :
    blocks.Fits taken b.kind b.id where
  lt := h.used_lt _ (h.chain_used b hb)
  chain _ hc hid := congrArg OpenBlock.kind (h.eq_of_id hc hb hid)
  begins m hm hid := absurd (hid ▸ h.chain_used b hb) (h.begins_new m hm).1

/-- A queued begin bears a number that fits its kind. -/
theorem Numbered.fits_of_begin {blocks : Blocks} {taken : List Marker} {used : List Nat}
    (h : blocks.Numbered taken used) {m : Marker} (hm : m ∈ taken ++ blocks.openings) :
    blocks.Fits taken m.kind m.id where
  lt := (h.begins_new m hm).2
  chain b hb hid := absurd (hid ▸ h.chain_used b hb) (h.begins_new m hm).1
  begins _ hm' hid := congrArg Marker.kind (List.inj_on_of_nodup_map h.begins_nodup hm' hm hid)

/-- A smaller queue and a shorter chain are numbered apart as well. -/
theorem Numbered.shrink {blocks : Blocks} {taken : List Marker} {used : List Nat}
    (h : blocks.Numbered taken used) {pending : List Marker} {chain : List OpenBlock}
    (hpending : pending.Sublist blocks.pending) (hchain : chain.Sublist blocks.chain) :
    ({ blocks with pending, chain } : Blocks).Numbered taken used := by
  have hopenings : (taken ++ pending.filter (·.side == .opening)).Sublist
      (taken ++ blocks.openings) :=
    (List.Sublist.refl taken).append (hpending.filter _)
  refine ⟨h.chain_nodup.sublist (hchain.map _), fun b hb => h.chain_used b (hchain.subset hb),
    h.used_nodup, h.used_lt, h.begins_nodup.sublist (hopenings.map _),
    fun m hm => h.begins_new m (hopenings.subset hm), fun m hm hside => ?_⟩
  have hfits := h.ends m (hpending.subset hm) hside
  exact ⟨hfits.lt, fun b hb => hfits.chain b (hchain.subset hb),
    fun m' hm' => hfits.begins m' (hopenings.subset hm')⟩

/-!
### Queueing
-/

/-- The begin that is queued for a new block. -/
def newBegin (blocks : Blocks) (kind : BlockKind) (position creator blockEnd : Nat)
    (text : Option String) (deferred : Bool) : Marker :=
  { kind, side := .opening, position, creator, id := blocks.nextId, blockEnd, text, deferred }

/-- The marker that queueing an end adds. -/
def newEnd (blocks : Blocks) (kind : BlockKind) (id position : Nat) (text : Option String) : Marker :=
  { kind, side := .closing, position, creator := (blocks.creator? id).getD position, id,
    blockEnd := position, text, deferred := false }

@[simp] theorem queueBegin_pending (blocks : Blocks) (kind : BlockKind)
    (position creator blockEnd : Nat) (text : Option String) (deferred : Bool) :
    (blocks.queueBegin kind position creator blockEnd text deferred).2.pending =
      blocks.pending ++ [blocks.newBegin kind position creator blockEnd text deferred] := rfl

@[simp] theorem queueBegin_chain (blocks : Blocks) (kind : BlockKind)
    (position creator blockEnd : Nat) (text : Option String) (deferred : Bool) :
    (blocks.queueBegin kind position creator blockEnd text deferred).2.chain = blocks.chain := rfl

theorem queueEnd_eq (blocks : Blocks) (kind : BlockKind) (id position : Nat) (text : Option String) :
    blocks.queueEnd kind id position text =
      { blocks with pending := blocks.pending ++ [blocks.newEnd kind id position text] } := rfl

@[simp] theorem queueEnd_chain (blocks : Blocks) (kind : BlockKind) (id position : Nat)
    (text : Option String) : (blocks.queueEnd kind id position text).chain = blocks.chain := rfl

@[simp] theorem queueBlock_chain (blocks : Blocks) (kind : BlockKind) (position creator stop : Nat)
    (text : Option String) :
    (blocks.queueBlock kind position creator stop text).2.chain = blocks.chain := rfl

theorem openings_queueEnd (blocks : Blocks) (kind : BlockKind) (id position : Nat)
    (text : Option String) : (blocks.queueEnd kind id position text).openings = blocks.openings := by
  simp [openings, queueEnd]

/-- A new begin gets the next number, which no block has had. -/
theorem Numbered.queueBegin {blocks : Blocks} {used : List Nat} (h : blocks.Numbered [] used)
    (kind : BlockKind) (position creator blockEnd : Nat) (text : Option String) (deferred : Bool) :
    (blocks.queueBegin kind position creator blockEnd text deferred).2.Numbered [] used := by
  set marker := blocks.newBegin kind position creator blockEnd text deferred with hmarker
  have hopenings : (blocks.queueBegin kind position creator blockEnd text deferred).2.openings =
      blocks.openings ++ [marker] := by
    simp [openings, hmarker, newBegin]
  have hlt : ∀ m ∈ blocks.openings, m.id < blocks.nextId := fun m hm =>
    (h.begins_new m (List.mem_append_right _ hm)).2
  refine ⟨h.chain_nodup, h.chain_used, h.used_nodup, fun id hid => Nat.lt_succ_of_lt (h.used_lt id hid),
    ?_, ?_, ?_⟩
  · rw [hopenings, List.nil_append, List.map_append, List.nodup_append]
    refine ⟨h.begins_nodup, List.nodup_singleton _, ?_⟩
    intro a ha b hb
    obtain ⟨m, hm, rfl⟩ := List.mem_map.1 ha
    rw [List.map_singleton, List.mem_singleton] at hb
    have := hlt m hm
    rw [hb]
    exact Nat.ne_of_lt this
  · intro m hm
    rw [hopenings, List.nil_append, List.mem_append, List.mem_singleton] at hm
    rcases hm with hm | rfl
    · have hnew := h.begins_new m (List.mem_append_right _ hm)
      exact ⟨hnew.1, Nat.lt_succ_of_lt hnew.2⟩
    · exact ⟨fun hused => Nat.lt_irrefl _ (h.used_lt _ hused), Nat.lt_succ_self _⟩
  · intro m hm hside
    rw [queueBegin_pending, List.mem_append, List.mem_singleton] at hm
    rcases hm with hm | rfl
    · have hfits := h.ends m hm hside
      refine ⟨Nat.lt_succ_of_lt hfits.lt, hfits.chain, fun m' hm' hid => ?_⟩
      rw [hopenings, List.nil_append, List.mem_append, List.mem_singleton] at hm'
      rcases hm' with hm' | rfl
      · exact hfits.begins m' (List.mem_append_right _ hm') hid
      · exact absurd hid.symm (Nat.ne_of_lt hfits.lt)
    · cases hside

/-- An end may be queued for a number that fits its kind. -/
theorem Numbered.queueEnd {blocks : Blocks} {taken : List Marker} {used : List Nat}
    (h : blocks.Numbered taken used) {kind : BlockKind} {id : Nat}
    (hfits : blocks.Fits taken kind id) (position : Nat) (text : Option String) :
    (blocks.queueEnd kind id position text).Numbered taken used := by
  have hopenings := openings_queueEnd blocks kind id position text
  refine ⟨h.chain_nodup, h.chain_used, h.used_nodup, h.used_lt, by rw [hopenings]; exact h.begins_nodup,
    fun m hm => h.begins_new m (by rwa [hopenings] at hm), fun m hm hside => ?_⟩
  have hold : blocks.Fits taken m.kind m.id := by
    rw [Blocks.queueEnd, List.mem_append, List.mem_singleton] at hm
    rcases hm with hm | rfl
    · exact h.ends m hm hside
    · exact hfits
  exact ⟨hold.lt, hold.chain, fun m' hm' => hold.begins m' (by rwa [hopenings] at hm')⟩

/-- Both ends of a new block. -/
theorem Numbered.queueBlock {blocks : Blocks} {used : List Nat} (h : blocks.Numbered [] used)
    (kind : BlockKind) (position creator stop : Nat) (text : Option String) :
    (blocks.queueBlock kind position creator stop text).2.Numbered [] used := by
  have hbegin := h.queueBegin kind position creator stop text false
  refine hbegin.queueEnd ?_ stop none
  exact hbegin.fits_of_begin (m := blocks.newBegin kind position creator stop text false)
    (by simp [openings, newBegin])

/-!
### Taking and entering
-/

/-- A begin that is due, deferred or not as asked for. -/
def isDue (horizon : Horizon) (deferred : Bool) (m : Marker) : Bool :=
  m.side == .opening && m.deferred == deferred && horizon.reaches m.position

theorem isDue_iff {horizon : Horizon} {deferred : Bool} {m : Marker} :
    isDue horizon deferred m = true ↔
      m.side = .opening ∧ m.deferred = deferred ∧ horizon.reaches m.position = true := by
  simp [isDue, and_assoc]

theorem isDue_of_lt {cursor : Nat} {deferred : Bool} {m : Marker} (h : cursor < m.position) :
    isDue (.upTo cursor) deferred m = false := by
  simp [isDue, Horizon.reaches, h]

theorem isDue_of_closing {horizon : Horizon} {deferred : Bool} {m : Marker} (h : m.side = .closing) :
    isDue horizon deferred m = false := by
  simp [isDue, h]

theorem isDue_of_deferred {horizon : Horizon} {m : Marker} (h : m.deferred = true) :
    isDue horizon false m = false := by
  simp [isDue, h]

theorem takeBegins_plain (blocks : Blocks) (horizon : Horizon) :
    (blocks.takeBegins horizon false).1 = blocks.pending.filter (isDue horizon false) := by
  simp only [takeBegins, List.partition_eq_filter_filter, Bool.false_eq_true, if_false]
  rfl

theorem takeBegins_deferred (blocks : Blocks) (horizon : Horizon) :
    (blocks.takeBegins horizon true).1 =
      (blocks.pending.filter (isDue horizon true)).mergeSort beginsNoLater := by
  simp only [takeBegins, List.partition_eq_filter_filter, if_true]
  rfl

theorem takeBegins_rest (blocks : Blocks) (horizon : Horizon) (deferred : Bool) :
    (blocks.takeBegins horizon deferred).2 =
      { blocks with pending := blocks.pending.filter fun m => !isDue horizon deferred m } := by
  simp [takeBegins, isDue, Function.comp_def]

theorem takeBegins_perm (blocks : Blocks) (horizon : Horizon) (deferred : Bool) :
    (blocks.takeBegins horizon deferred).1.Perm (blocks.pending.filter (isDue horizon deferred)) := by
  cases deferred with
  | false => rw [takeBegins_plain]
  | true =>
      rw [takeBegins_deferred]
      exact List.mergeSort_perm _ _

theorem beginsNoLater_iff {a b : Marker} :
    beginsNoLater a b = true ↔ a.position < b.position ∨ a.position = b.position ∧ b.blockEnd ≤ a.blockEnd := by
  simp [beginsNoLater]

theorem beginsNoLater_trans (a b c : Marker) (hab : beginsNoLater a b = true) (hbc : beginsNoLater b c = true) :
    beginsNoLater a c = true := by
  rw [beginsNoLater_iff] at hab hbc ⊢
  omega

theorem beginsNoLater_total (a b : Marker) : (beginsNoLater a b || beginsNoLater b a) = true := by
  rw [Bool.or_eq_true, beginsNoLater_iff, beginsNoLater_iff]
  omega

theorem mem_takeBegins {blocks : Blocks} {horizon : Horizon} {deferred : Bool} {m : Marker} :
    m ∈ (blocks.takeBegins horizon deferred).1 ↔
      m ∈ blocks.pending ∧ m.side = .opening ∧ m.deferred = deferred ∧ horizon.reaches m.position = true := by
  rw [(takeBegins_perm ..).mem_iff, List.mem_filter, isDue_iff]

/-- Begins that are taken out of the queue are still apart from all others. -/
theorem Numbered.takeBegins {blocks : Blocks} {used : List Nat} (h : blocks.Numbered [] used)
    (horizon : Horizon) (deferred : Bool) :
    (blocks.takeBegins horizon deferred).2.Numbered (blocks.takeBegins horizon deferred).1 used := by
  have hsplit : ((blocks.takeBegins horizon deferred).1 ++
      (blocks.takeBegins horizon deferred).2.openings).Perm blocks.openings := by
    have hparts := List.filter_append_perm (isDue horizon deferred) blocks.openings
    have hfirst : blocks.openings.filter (isDue horizon deferred) =
        blocks.pending.filter (isDue horizon deferred) := by
      rw [openings, List.filter_filter]
      refine List.filter_congr fun m _ => ?_
      cases hside : m.side <;> simp [isDue, hside]
    have hsecond : blocks.openings.filter (fun m => !isDue horizon deferred m) =
        (blocks.takeBegins horizon deferred).2.openings := by
      rw [openings, openings, takeBegins_rest, List.filter_filter, List.filter_filter]
      exact List.filter_congr fun m _ => Bool.and_comm _ _
    rw [hfirst, hsecond] at hparts
    exact ((takeBegins_perm blocks horizon deferred).append_right _).trans hparts
  refine ⟨h.chain_nodup, h.chain_used, h.used_nodup, h.used_lt,
    (hsplit.map _).nodup_iff.2 h.begins_nodup,
    fun m hm => h.begins_new m (hsplit.mem_iff.1 hm), fun m hm hside => ?_⟩
  rw [takeBegins_rest] at hm
  have hfits := h.ends m (List.mem_of_mem_filter hm) hside
  exact ⟨hfits.lt, hfits.chain, fun m' hm' => hfits.begins m' (hsplit.mem_iff.1 hm')⟩

/-- A begin that was taken may be dropped. -/
theorem Numbered.drop {blocks : Blocks} {marker : Marker} {taken : List Marker} {used : List Nat}
    (h : blocks.Numbered (marker :: taken) used) : blocks.Numbered taken used := by
  refine ⟨h.chain_nodup, h.chain_used, h.used_nodup, h.used_lt, (List.nodup_cons.1 h.begins_nodup).2,
    fun m hm => h.begins_new m (List.mem_cons_of_mem _ hm), fun m hm hside => ?_⟩
  have hfits := h.ends m hm hside
  exact ⟨hfits.lt, hfits.chain, fun m' hm' => hfits.begins m' (List.mem_cons_of_mem _ hm')⟩

/-- A begin that was taken is entered; its number is used from then on. -/
theorem Numbered.enter {blocks : Blocks} {marker : Marker} {taken : List Marker} {used : List Nat}
    (h : blocks.Numbered (marker :: taken) used) :
    (blocks.enter marker).Numbered taken (marker.id :: used) := by
  have hmarker := h.begins_new marker (List.mem_cons_self ..)
  have hnodup := List.nodup_cons.1 h.begins_nodup
  refine ⟨?_, ?_, List.nodup_cons.2 ⟨hmarker.1, h.used_nodup⟩, ?_, hnodup.2, ?_, ?_⟩
  · refine List.nodup_cons.2 ⟨fun hmem => ?_, h.chain_nodup⟩
    obtain ⟨b, hb, hid⟩ := List.mem_map.1 hmem
    have hused := h.chain_used b hb
    rw [show b.id = marker.id from hid] at hused
    exact hmarker.1 hused
  · intro b hb
    rcases List.mem_cons.1 hb with rfl | hb
    · exact List.mem_cons_self ..
    · exact List.mem_cons_of_mem _ (h.chain_used b hb)
  · intro id hid
    rcases List.mem_cons.1 hid with rfl | hid
    · exact hmarker.2
    · exact h.used_lt id hid
  · intro m hm
    have hnew := h.begins_new m (List.mem_cons_of_mem _ hm)
    refine ⟨fun hused => ?_, hnew.2⟩
    rcases List.mem_cons.1 hused with hid | hused
    · have hmem := List.mem_map_of_mem (f := Marker.id) hm
      rw [hid] at hmem
      exact hnodup.1 hmem
    · exact hnew.1 hused
  · intro m hm hside
    have hfits := h.ends m hm hside
    refine ⟨hfits.lt, fun b hb hid => ?_, fun m' hm' => hfits.begins m' (List.mem_cons_of_mem _ hm')⟩
    rcases List.mem_cons.1 hb with rfl | hb
    · exact hfits.begins marker (List.mem_cons_self ..) hid
    · exact hfits.chain b hb hid

/-!
### Leaving
-/

/-- Leaving the innermost block leaves no other. -/
theorem leave_innermost {blocks : Blocks} {top : OpenBlock} {outer : List OpenBlock}
    (hchain : blocks.chain = top :: outer) :
    (blocks.leave top.id).2 = { blocks with chain := outer } := by
  simp [leave, hchain]

theorem drain_rest (blocks : Blocks) : blocks.drain.2 = { blocks with pending := [] } := by
  simp [drain]

/-- The end that is taken is that of the innermost block, and it leaves the queue. -/
theorem takeEnd?_eq_some {blocks rest : Blocks} {horizon : Horizon} {marker : Marker}
    (h : blocks.takeEnd? horizon = some (marker, rest)) :
    ∃ top outer, blocks.chain = top :: outer ∧ marker ∈ blocks.pending ∧ marker.id = top.id ∧
      marker.side = .closing ∧ horizon.reaches marker.position = true ∧
      rest = { blocks with
        pending := blocks.pending.eraseP fun m =>
          isEndOf top.id m && horizon.reaches m.position } := by
  simp only [takeEnd?, innermost?, Option.bind_eq_bind, Option.bind_eq_some_iff,
    Option.pure_def, Option.some.injEq, Prod.mk.injEq] at h
  obtain ⟨top, htop, found, hfound, rfl, rfl⟩ := h
  obtain ⟨outer, hchain⟩ := List.head?_eq_some_iff.1 htop
  have hready := List.find?_some hfound
  simp only [isEndOf, Bool.and_eq_true, beq_iff_eq] at hready
  exact ⟨top, outer, hchain, List.mem_of_find?_eq_some hfound, hready.1.1, hready.1.2, hready.2, rfl⟩

/-- Without an end to take, no end of the innermost block is due. -/
theorem takeEnd?_eq_none {blocks : Blocks} {horizon : Horizon} {top : OpenBlock} {outer : List OpenBlock}
    (h : blocks.takeEnd? horizon = none) (hchain : blocks.chain = top :: outer) :
    ∀ m ∈ blocks.pending, isEndOf top.id m = true → horizon.reaches m.position = false := by
  intro m hm hend
  cases hfind : blocks.pending.find? fun m => isEndOf top.id m && horizon.reaches m.position with
  | none =>
      have hidle := List.find?_eq_none.1 hfind m hm
      rwa [hend, Bool.true_and, Bool.not_eq_true] at hidle
  | some found => simp [takeEnd?, innermost?, hchain, hfind] at h

end Blocks

end ScriptBytecode
