/-
Module: ScriptBytecode.Proofs.Walk.Closing
Purpose: Letting markers take effect in two goes. Closing what is due comes down to closing the innermost block again
  and again, as often as it takes to reach the outermost block whose end is due. A cursor that moves on in two moves
  therefore closes the same blocks in the same order, with the same footers, as one that moves at once. Begins of `do`
  loops are sorted by position, so they too may take effect in two goes.
Main exports: Blocks.endsBy, Blocks.depthTo, Blocks.takeBegins_of_le, Walk.closeTop, Tended.closeDue_eq_iterate,
  Settled.openDue_openDue, Poised.reconcile_reconcile
-/
import ScriptBytecode.Proofs.Walk.Relocation

namespace ScriptBytecode

/-- A run of elements does not go on where none of what follows belongs to it. -/
theorem span_append_of_neg {α : Type} {p : α → Bool} (first second : List α) (h : ∀ b ∈ second, p b = false) :
    (first ++ second).takeWhile p = first.takeWhile p ∧
      (first ++ second).dropWhile p = first.dropWhile p ++ second := by
  induction first with
  | nil =>
      cases second with
      | nil => exact ⟨rfl, rfl⟩
      | cons b rest => simp [h b (List.mem_cons_self ..)]
  | cons a rest ih => cases ha : p a <;> simp [ha, ih]

section

variable {α : Type} {le : α → α → Bool} (htrans : ∀ a b c, le a b = true → le b c = true → le a c = true)
  (htotal : ∀ a b, (le a b || le b a) = true)

include htrans htotal

/-- Sorting puts the first element in front of what it comes no later than. -/
theorem mergeSort_cons_eq (a : α) (rest : List α) :
    (a :: rest).mergeSort le =
      (rest.mergeSort le).takeWhile (!le a ·) ++ a :: (rest.mergeSort le).dropWhile (!le a ·) := by
  obtain ⟨before, after, hsorted, hrest, hbefore⟩ := List.mergeSort_cons htrans htotal a rest
  have hafter : ∀ b ∈ after, (!le a b) = false := by
    have hpairwise := List.pairwise_mergeSort htrans htotal (a :: rest)
    rw [hsorted, List.pairwise_append, List.pairwise_cons] at hpairwise
    exact fun b hb => by simp [hpairwise.2.1.1 b hb]
  obtain ⟨htake, hdrop⟩ := span_append_of_neg [] after hafter
  rw [List.nil_append] at htake hdrop
  rw [hsorted, hrest, List.takeWhile_append_of_pos hbefore, List.dropWhile_append_of_pos hbefore, htake, hdrop]
  simp

/-- Elements of which some come before all others are sorted apart from them. -/
theorem mergeSort_eq_append (early : α → Bool) {xs : List α}
    (h : ∀ a ∈ xs, ∀ b ∈ xs, early a = true → early b = false → le a b = true ∧ le b a = false) :
    xs.mergeSort le = (xs.filter early).mergeSort le ++ (xs.filter (!early ·)).mergeSort le := by
  induction xs with
  | nil => simp
  | cons a rest ih =>
      have hrest := ih fun b hb c hc => h b (List.mem_cons_of_mem _ hb) c (List.mem_cons_of_mem _ hc)
      have hmem : ∀ {p : α → Bool} {b}, b ∈ (rest.filter p).mergeSort le → b ∈ a :: rest ∧ p b = true := by
        intro p b hb
        obtain ⟨hb, hp⟩ := List.mem_filter.1 ((List.mergeSort_perm _ _).mem_iff.1 hb)
        exact ⟨List.mem_cons_of_mem _ hb, hp⟩
      rw [mergeSort_cons_eq htrans htotal, hrest]
      cases hearly : early a with
      | true =>
          have hlate : ∀ b ∈ (rest.filter (!early ·)).mergeSort le, (!le a b) = false := fun b hb => by
            simp [(h a (List.mem_cons_self ..) b (hmem hb).1 hearly (by simpa using (hmem hb).2)).1]
          obtain ⟨htake, hdrop⟩ := span_append_of_neg ((rest.filter early).mergeSort le) _ hlate
          rw [List.filter_cons_of_pos hearly, List.filter_cons_of_neg (by simp [hearly]),
            mergeSort_cons_eq htrans htotal, htake, hdrop, List.append_assoc, List.cons_append]
      | false =>
          have hbefore : ∀ b ∈ (rest.filter early).mergeSort le, (!le a b) = true := fun b hb => by
            simp [(h b (hmem hb).1 a (List.mem_cons_self ..) (hmem hb).2 hearly).2]
          rw [List.filter_cons_of_neg (by simp [hearly]), List.filter_cons_of_pos (by simp [hearly]),
            mergeSort_cons_eq htrans htotal, List.takeWhile_append_of_pos hbefore, List.dropWhile_append_of_pos hbefore,
            List.append_assoc]

end

namespace Blocks

/-- The end of a block is queued and due. -/
def endsBy (blocks : Blocks) (horizon : Horizon) (id : Nat) : Bool :=
  (blocks.pendingEnd? id).any (horizon.reaches ·.position)

/-- How many blocks of a chain have to close, innermost first, for none that is due to be left. -/
def depthTo (due : Nat → Bool) : List OpenBlock → Nat
  | [] => 0
  | b :: outer => if due b.id || 0 < depthTo due outer then depthTo due outer + 1 else 0

theorem depthTo_pos_iff (due : Nat → Bool) (chain : List OpenBlock) :
    0 < depthTo due chain ↔ ∃ b ∈ chain, due b.id = true := by
  induction chain with
  | nil => simp [depthTo]
  | cons b outer ih =>
      simp only [depthTo, Bool.or_eq_true, decide_eq_true_eq, List.mem_cons, exists_eq_or_imp, ← ih]
      split
      · rename_i hdue
        exact ⟨fun _ => hdue, fun _ => Nat.succ_pos _⟩
      · rename_i hidle
        exact ⟨fun hpos => absurd hpos (Nat.lt_irrefl 0), fun hdue => absurd hdue hidle⟩

/-- A chain below a block that has to close is one block shorter. -/
theorem depthTo_cons_of_pos {due : Nat → Bool} {b : OpenBlock} {outer : List OpenBlock}
    (h : 0 < depthTo due (b :: outer)) : depthTo due (b :: outer) = depthTo due outer + 1 := by
  rw [depthTo] at h ⊢
  split
  · rfl
  · rename_i hidle
    rw [if_neg hidle] at h
    cases h

theorem depthTo_congr {due due' : Nat → Bool} {chain : List OpenBlock}
    (h : ∀ b ∈ chain, due b.id = due' b.id) : depthTo due chain = depthTo due' chain := by
  induction chain with
  | nil => rfl
  | cons b outer ih =>
      rw [depthTo, depthTo, h b (List.mem_cons_self ..), ih fun c hc => h c (List.mem_cons_of_mem _ hc)]

/-- The more is due, the more has to close. -/
theorem depthTo_mono {due due' : Nat → Bool} (h : ∀ id, due id = true → due' id = true)
    (chain : List OpenBlock) : depthTo due chain ≤ depthTo due' chain := by
  induction chain with
  | nil => exact Nat.le_refl _
  | cons b outer ih =>
      cases Nat.eq_zero_or_pos (depthTo due (b :: outer)) with
      | inl hzero => exact hzero ▸ Nat.zero_le _
      | inr hpos =>
          obtain ⟨c, hc, hdue⟩ := (depthTo_pos_iff due _).1 hpos
          have hpos' := (depthTo_pos_iff due' _).2 ⟨c, hc, h _ hdue⟩
          rw [depthTo_cons_of_pos hpos, depthTo_cons_of_pos hpos']
          exact Nat.succ_le_succ ih

/-- The end of another block stays queued when one is taken out. -/
theorem find?_isEndOf_eraseP {pending : List Marker} {id other : Nat} (hne : id ≠ other) :
    (pending.eraseP (isEndOf other)).find? (isEndOf id) = pending.find? (isEndOf id) := by
  induction pending with
  | nil => rfl
  | cons m rest ih =>
      by_cases hother : isEndOf other m = true
      · have hid : isEndOf id m = false := by
          rw [Bool.eq_false_iff]
          intro hid
          exact hne ((isEndOf_iff.1 hid).1.symm.trans (isEndOf_iff.1 hother).1)
        rw [List.eraseP_cons_of_pos hother, List.find?_cons, hid]
      · rw [List.eraseP_cons_of_neg hother, List.find?_cons, List.find?_cons, ih]

/-- Begins that are due at a cursor come before those that are due only at a later one. -/
theorem takeBegins_of_le {blocks rest : Blocks} {cursor later : Nat} (hle : cursor ≤ later)
    (hrest : rest.pending = blocks.pending.filter fun m => !isDue (.upTo cursor) true m) :
    (blocks.takeBegins (.upTo later) true).1 =
        (blocks.takeBegins (.upTo cursor) true).1 ++ (rest.takeBegins (.upTo later) true).1 ∧
      (rest.pending.filter fun m => !isDue (.upTo later) true m) =
        blocks.pending.filter fun m => !isDue (.upTo later) true m := by
  have hdue : ∀ m, isDue (.upTo cursor) true m = (decide (m.position ≤ cursor) && isDue (.upTo later) true m) := by
    intro m
    by_cases hearly : m.position ≤ cursor
    · simp [isDue, Horizon.reaches, hearly, Nat.le_trans hearly hle]
    · simp [isDue, Horizon.reaches, hearly]
  have hkept : ∀ m, (isDue (.upTo later) true m && !isDue (.upTo cursor) true m) =
      (!decide (m.position ≤ cursor) && isDue (.upTo later) true m) := by
    intro m
    rw [hdue]
    cases isDue (.upTo later) true m <;> simp
  have hgone : ∀ m, (!isDue (.upTo later) true m && !isDue (.upTo cursor) true m) = !isDue (.upTo later) true m := by
    intro m
    rw [hdue]
    cases isDue (.upTo later) true m <;> simp
  constructor
  · rw [takeBegins_deferred, takeBegins_deferred, takeBegins_deferred, hrest,
      mergeSort_eq_append beginsNoLater_trans beginsNoLater_total (fun m => decide (m.position ≤ cursor))]
    · simp only [List.filter_filter, ← hdue, hkept]
    · intro a _ b _ ha hb
      have hlt : a.position < b.position := by
        rw [decide_eq_true_eq] at ha
        rw [decide_eq_false_iff_not] at hb
        omega
      rw [Bool.eq_false_iff, ne_eq, beginsNoLater_iff, beginsNoLater_iff]
      omega
  · simp only [hrest, List.filter_filter, hgone]

end Blocks

namespace Walk

/-- Closes the innermost block, with its footer if its end is queued. -/
def closeTop (walk : Walk) : Walk :=
  match walk.blocks.innermost? with
  | none => walk
  | some top =>
    let (cancelled, blocks) := walk.blocks.cancelEnd top.id
    { walk with blocks }.close top.kind top.id (cancelled.bind (·.text))

variable {walk : Walk} {cursor : Nat}

theorem closeTop_eq {top : OpenBlock} {outer : List OpenBlock} (hchain : walk.blocks.chain = top :: outer) :
    walk.closeTop =
      ({ walk with blocks := (walk.blocks.cancelEnd top.id).2 } : Walk).close top.kind top.id
        ((walk.blocks.cancelEnd top.id).1.bind (·.text)) := by
  simp [closeTop, Blocks.innermost?, hchain]

theorem Tended.closeTop (h : walk.Tended cursor) {top : OpenBlock} {outer : List OpenBlock}
    (hchain : walk.blocks.chain = top :: outer) :
    walk.closeTop.Tended cursor ∧
      walk.closeTop.blocks =
        { walk.blocks with pending := walk.blocks.pending.eraseP (Blocks.isEndOf top.id), chain := outer } := by
  rw [closeTop_eq hchain]
  apply h.close List.eraseP_sublist hchain
  exact Blocks.not_isEndOf_of_mem_cancel (h.balanced.single top.id)

/-- How many blocks have to close for none that is due to be left. -/
def dueDepth (walk : Walk) (horizon : Horizon) : Nat :=
  Blocks.depthTo (walk.blocks.endsBy horizon) walk.blocks.chain

/-- Closing the innermost block of those that have to close leaves one fewer to close. -/
theorem Tended.dueDepth_closeTop (h : walk.Tended cursor) {horizon : Horizon}
    (hpos : 0 < walk.dueDepth horizon) :
    walk.closeTop.Tended cursor ∧ walk.closeTop.dueDepth horizon + 1 = walk.dueDepth horizon := by
  unfold dueDepth at hpos ⊢
  cases hchain : walk.blocks.chain with
  | nil =>
      rw [hchain] at hpos
      cases hpos
  | cons top outer =>
      obtain ⟨hclosed, hblocks⟩ := h.closeTop hchain
      rw [hchain] at hpos
      rw [hblocks, Blocks.depthTo_cons_of_pos hpos]
      refine ⟨hclosed, congrArg (· + 1) (Blocks.depthTo_congr fun b hb => ?_)⟩
      have hnodup := h.numbered.chain_nodup
      rw [hchain, List.map_cons, List.nodup_cons] at hnodup
      have hne : b.id ≠ top.id := fun heq => hnodup.1 (heq ▸ List.mem_map_of_mem hb)
      rw [Blocks.endsBy, Blocks.endsBy, Blocks.pendingEnd?, Blocks.pendingEnd?, Blocks.find?_isEndOf_eraseP hne]

theorem Tended.iterate_closeTop (h : walk.Tended cursor) {horizon : Horizon} {count : Nat}
    (hcount : count ≤ walk.dueDepth horizon) :
    (Walk.closeTop^[count] walk).Tended cursor ∧
      (Walk.closeTop^[count] walk).dueDepth horizon + count = walk.dueDepth horizon := by
  induction count generalizing walk with
  | zero => exact ⟨h, rfl⟩
  | succ count ih =>
      obtain ⟨hclosed, hdepth⟩ := h.dueDepth_closeTop (Nat.lt_of_lt_of_le (Nat.succ_pos _) hcount)
      obtain ⟨hrest, hleft⟩ := ih hclosed (by omega)
      rw [Function.iterate_succ_apply]
      exact ⟨hrest, by omega⟩

/-- An end that is due and its block go the way the innermost block goes. -/
theorem Tended.closeTaken_eq (h : walk.Tended cursor) {horizon : Horizon} {marker : Marker} {rest : Blocks}
    (htaken : walk.blocks.takeEnd? horizon = some (marker, rest)) :
    0 < walk.dueDepth horizon ∧
      ({ walk with blocks := rest } : Walk).close marker.kind marker.id marker.text = walk.closeTop := by
  obtain ⟨top, outer, hchain, hmem, hid, hside, hdue, rfl⟩ := Blocks.takeEnd?_eq_some htaken
  have hend : Blocks.isEndOf top.id marker = true := Blocks.isEndOf_iff.2 ⟨hid, hside⟩
  -- The block has no other end, so the one that is due is the one that is queued.
  have honly : ∀ m ∈ walk.blocks.pending, Blocks.isEndOf top.id m = true → m = marker := fun m hm hm' =>
    h.balanced.eq_of_mem_ends (List.mem_filter.2 ⟨hm, hm'⟩) (List.mem_filter.2 ⟨hmem, hend⟩)
  have hfound : walk.blocks.pendingEnd? top.id = some marker := by
    cases hfind : walk.blocks.pendingEnd? top.id with
    | none => exact absurd hend (List.find?_eq_none.1 hfind marker hmem)
    | some found => rw [honly found (List.mem_of_find?_eq_some hfind) (List.find?_some hfind)]
  have herase : (walk.blocks.pending.eraseP fun m => Blocks.isEndOf top.id m && horizon.reaches m.position) =
      walk.blocks.pending.eraseP (Blocks.isEndOf top.id) := by
    apply Blocks.eraseP_congr
    intro m hm
    cases hm' : Blocks.isEndOf top.id m with
    | false => rfl
    | true => rw [honly m hm hm', hdue, Bool.and_self]
  have hkind : top.kind = marker.kind :=
    (h.numbered.ends marker hmem hside).chain top (by simp [hchain]) hid.symm
  constructor
  · rw [dueDepth, Blocks.depthTo_pos_iff]
    refine ⟨top, by simp [hchain], ?_⟩
    rw [Blocks.endsBy, hfound, Option.any_some, hdue]
  · rw [herase, closeTop_eq hchain, Blocks.cancelEnd, hfound, hkind, hid]
    rfl

/-- Closing the blocks inside one that is due is part of closing what is due. -/
theorem Tended.closeInside_eq_iterate (h : walk.Tended cursor) {horizon : Horizon} {outer : Nat} (bound : Nat)
    (hdue : walk.blocks.endsBy horizon outer = true) (hmem : outer ∈ walk.blocks.chain.map (·.id)) :
    ∃ count ≤ walk.dueDepth horizon, walk.closeInside outer bound = Walk.closeTop^[count] walk := by
  induction bound generalizing walk with
  | zero => exact ⟨0, Nat.zero_le _, rfl⟩
  | succ bound ih =>
      cases hchain : walk.blocks.chain with
      | nil =>
          rw [hchain] at hmem
          cases hmem
      | cons top rest =>
          have hinner : walk.blocks.innermost? = some top := by simp [Blocks.innermost?, hchain]
          by_cases hid : top.id = outer
          · exact ⟨0, Nat.zero_le _, by simp [Walk.closeInside, hinner, hid]⟩
          · obtain ⟨b, hb, hbid⟩ := List.mem_map.1 hmem
            have hpos : 0 < walk.dueDepth horizon :=
              (Blocks.depthTo_pos_iff _ _).2 ⟨b, hb, by rw [hbid, hdue]⟩
            obtain ⟨hclosed, hdepth⟩ := h.dueDepth_closeTop hpos
            have hblocks := (h.closeTop hchain).2
            have hstill : walk.closeTop.blocks.endsBy horizon outer = true := by
              rw [hblocks, ← hdue, Blocks.endsBy, Blocks.endsBy, Blocks.pendingEnd?, Blocks.pendingEnd?,
                Blocks.find?_isEndOf_eraseP (Ne.symm hid)]
            have hinside : outer ∈ walk.closeTop.blocks.chain.map (·.id) := by
              rw [hchain, List.map_cons, List.mem_cons] at hmem
              rw [hblocks]
              exact hmem.resolve_left (Ne.symm hid)
            obtain ⟨count, hcount, heq⟩ := ih hclosed hstill hinside
            refine ⟨count + 1, by omega, ?_⟩
            rw [Function.iterate_succ_apply, ← heq, closeTop_eq hchain]
            simp [Walk.closeInside, hinner, hid]

/-- Closing what is due is closing the innermost block as often as it takes to reach the outermost block that is
    due. -/
theorem Tended.closeDue_eq_iterate (h : walk.Tended cursor) (horizon : Horizon) {bound : Nat}
    (hbound : walk.blocks.chain.length ≤ bound) :
    walk.closeDue horizon bound = Walk.closeTop^[walk.dueDepth horizon] walk := by
  induction bound generalizing walk with
  | zero =>
      have hempty := List.length_eq_zero_iff.1 (Nat.le_zero.1 hbound)
      rw [dueDepth, hempty]
      rfl
  | succ bound ih =>
      -- What is closed first is counted first, and the rest is left to the next rounds.
      have hrounds : ∀ next, next.Tended cursor → next.blocks.chain.length < walk.blocks.chain.length →
          ∀ count ≤ walk.dueDepth horizon, next = Walk.closeTop^[count] walk →
          next.closeDue horizon bound = Walk.closeTop^[walk.dueDepth horizon] walk := by
        intro next hnext hshorter count hcount heq
        have hleft := (h.iterate_closeTop hcount).2
        rw [← heq] at hleft
        rw [ih hnext (by omega), ← hleft, Function.iterate_add_apply, ← heq]
      unfold Walk.closeDue
      split
      · rename_i marker rest htaken
        obtain ⟨hpos, heq⟩ := h.closeTaken_eq htaken
        obtain ⟨hclosed, pending, outer, -, hshorter, hblocks⟩ := h.closeTaken htaken
        apply hrounds _ hclosed (by rw [hblocks]; exact hshorter) 1 hpos
        rw [heq]
        rfl
      · rename_i htake
        split
        · rename_i hblocked
          have hidle : walk.dueDepth horizon = 0 := by
            apply Nat.eq_zero_of_not_pos
            intro hpos
            obtain ⟨b, hb, hdue⟩ := (Blocks.depthTo_pos_iff _ _).1 hpos
            rw [Blocks.endsBy, Option.any_eq_true] at hdue
            obtain ⟨m, hfound, hreaches⟩ := hdue
            have hend := List.find?_some hfound
            rw [h.balanced.not_reaches htake hblocked m (List.mem_of_find?_eq_some hfound)
              (Blocks.isEndOf_iff.1 hend).2] at hreaches
            cases hreaches
          rw [hidle]
          rfl
        · rename_i outer hblocked
          obtain ⟨top, rest, hchain, hmem⟩ := Blocks.blockedEnd?_eq_some hblocked
          have hdue : walk.blocks.endsBy horizon outer = true := List.find?_some hblocked
          obtain ⟨count, hcount, heq⟩ := h.closeInside_eq_iterate walk.blocks.chain.length hdue
            (by rw [hchain]; exact List.mem_cons_of_mem _ hmem)
          obtain ⟨hclosed, -, hshorter⟩ := h.closeInside outer walk.blocks.chain.length
          have hne : top.id ≠ outer := by
            intro hid
            have hnodup := h.numbered.chain_nodup
            rw [hchain, List.map_cons, hid] at hnodup
            exact (List.nodup_cons.1 hnodup).1 hmem
          apply hrounds _ hclosed (hshorter (by simp [hchain]) (by simp [Blocks.innermost?, hchain, hne])) count
            hcount heq

/-- Closing what is due at a cursor and then what is due at a later one closes what is due at the later one. -/
theorem Tended.closeDue_closeDue (h : walk.Tended cursor) {later : Nat} (hle : cursor ≤ later) :
    (walk.closeDue (.upTo cursor) walk.blocks.chain.length).closeDue (.upTo later)
        (walk.closeDue (.upTo cursor) walk.blocks.chain.length).blocks.chain.length =
      walk.closeDue (.upTo later) walk.blocks.chain.length := by
  have hless : walk.dueDepth (.upTo cursor) ≤ walk.dueDepth (.upTo later) := by
    apply Blocks.depthTo_mono
    intro id hdue
    rw [Blocks.endsBy, Option.any_eq_true] at hdue ⊢
    obtain ⟨m, hm, hreaches⟩ := hdue
    simp only [Horizon.reaches, decide_eq_true_eq] at hreaches
    exact ⟨m, hm, by simpa [Horizon.reaches] using Nat.le_trans hreaches hle⟩
  obtain ⟨hclosed, hleft⟩ := h.iterate_closeTop hless
  rw [h.closeDue_eq_iterate (.upTo cursor) (Nat.le_refl _), hclosed.closeDue_eq_iterate (.upTo later) (Nat.le_refl _),
    h.closeDue_eq_iterate (.upTo later) (Nat.le_refl _), ← Function.iterate_add_apply, hleft]

/-!
### Cursors that move on
-/

theorem Poised.mono (h : walk.Poised cursor) {later : Nat} (hle : cursor ≤ later) : walk.Poised later where
  toBracketed := h.toBracketed
  deferred := h.deferred
  plain := h.plain.imp_right fun ⟨m, hone, hposition, hkinds⟩ => ⟨m, hone, Nat.le_trans hposition hle, hkinds⟩

/-- The begin that an instruction has queued is due at once, and so at every later cursor. -/
theorem Poised.openDue_of_le (h : walk.Poised cursor) {later : Nat} (hle : cursor ≤ later) :
    walk.openDue (.upTo later) false = walk.openDue (.upTo cursor) false := by
  have htaken : (walk.blocks.takeBegins (.upTo later) false).1 = (walk.blocks.takeBegins (.upTo cursor) false).1 :=
    (h.mono hle).takeBegins.trans h.takeBegins.symm
  have hrest : (walk.blocks.takeBegins (.upTo later) false).2 = (walk.blocks.takeBegins (.upTo cursor) false).2 := by
    rw [Blocks.takeBegins_rest, Blocks.takeBegins_rest]
    have hsame : ∀ m ∈ walk.blocks.pending,
        (!Blocks.isDue (.upTo later) false m) = !Blocks.isDue (.upTo cursor) false m := by
      intro m hm
      have hmem := congrArg (m ∈ ·) htaken
      simp only [Blocks.takeBegins_plain, List.mem_filter, hm, true_and, eq_iff_iff] at hmem
      rw [Bool.eq_iff_iff.2 hmem]
    rw [List.filter_congr hsame]
  rw [openDue_eq, openDue_eq, htaken, hrest]

/-- `do` loops that begin up to a cursor and then up to a later one begin in the order in which they do at once. -/
theorem Settled.openDue_openDue (h : walk.Settled) {later : Nat} (hle : cursor ≤ later) :
    (walk.openDue (.upTo cursor) true).openDue (.upTo later) true = walk.openDue (.upTo later) true := by
  have hopened := h.openDue (.upTo cursor) true
  have hpending := congrArg (·.blocks.pending) (h.openDue_eq_withQueue (.upTo cursor) true)
  obtain ⟨htaken, hrest⟩ := Blocks.takeBegins_of_le hle hpending
  have hloops : ∀ m ∈ ((walk.openDue (.upTo cursor) true).blocks.takeBegins (.upTo later) true).1, m.kind = .loop :=
    fun m hm => hopened.kind_of_mem_takeBegins hm
  rw [hopened.openDue_eq_withQueue, h.openDue_eq_withQueue (.upTo later), htaken, hrest, List.foldl_append]
  generalize ((walk.openDue (.upTo cursor) true).blocks.takeBegins (.upTo later) true).1 = late at hloops ⊢
  rw [h.openDue_eq_withQueue, foldl_enter_withQueue hloops]
  rfl

/-- Markers that take effect at a cursor and then at a later one take effect as they do at the later one, if no `do`
    loop begins at the first, or nothing more closes at the second. -/
theorem Poised.reconcile_reconcile (h : walk.Poised cursor)
    (hbalanced : walk.blocks.Balanced (walk.blocks.openings.filter (!·.deferred)) cursor) {later : Nat}
    (hle : cursor ≤ later)
    (hcalm : (∀ m ∈ walk.blocks.pending, Blocks.isDue (.upTo cursor) true m = false) ∨
      ∀ m ∈ (walk.reconcile cursor).blocks.pending, m.side = .closing → later < m.position) :
    (walk.reconcile cursor).reconcile later = walk.reconcile later := by
  have htended := h.tended_openDue hbalanced
  have hopened := (openDue_pending walk (.upTo cursor) false).trans List.filter_sublist
  have hclosed := (htended.closeDue (Nat.le_refl _)).1
  have hshrinks := shrinks_closeDue (.upTo cursor) (walk.openDue (.upTo cursor) false).blocks.chain.length
    (walk.openDue (.upTo cursor) false)
  have htwice := htended.closeDue_closeDue hle
  unfold Walk.reconcile at hcalm ⊢
  rw [h.openDue_of_le hle]
  generalize walk.openDue (.upTo cursor) false = opened at *
  dsimp only at hcalm ⊢
  generalize opened.closeDue (.upTo cursor) opened.blocks.chain.length = closed at *
  -- Every begin that is left is that of a `do` loop.
  have hplain : ∀ m ∈ (closed.openDue (.upTo cursor) true).blocks.pending,
      Blocks.isDue (.upTo later) false m = false := by
    intro m hm
    cases hside : m.side with
    | closing => exact Blocks.isDue_of_closing hside
    | opening =>
        have hopening := hclosed.toSettled.openDue (.upTo cursor) true
        exact Blocks.isDue_of_deferred (hopening.begins m (List.mem_filter.2 ⟨hm, by rw [hside]; rfl⟩)).1
  rw [openDue_of_none hplain]
  rcases hcalm with hloops | hends
  · rw [openDue_of_none fun m hm => hloops m (hopened.subset (hshrinks.1.subset hm)), htwice]
  · have hquiet : ∀ m ∈ closed.blocks.pending, m.side = .closing → (Horizon.upTo later).reaches m.position = false := by
      intro m hm hside
      have hlate := hends m (hclosed.toSettled.end_mem_openDue hm hside _ _) hside
      simp [Horizon.reaches, hlate]
    rw [closeDue_of_none hquiet] at htwice
    rw [closeDue_of_none fun m hm hside => by simp [Horizon.reaches, hends m hm hside],
      hclosed.toSettled.openDue_openDue hle, htwice]

end Walk

end ScriptBytecode
