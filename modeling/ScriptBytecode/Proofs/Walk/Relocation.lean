/-
Module: ScriptBytecode.Proofs.Walk.Relocation
Purpose: Positions of blocks moved to other positions. Blocks are entered, closed and taken by their numbers and
  kinds; positions only say which markers are due, and in which order `do` loops begin at one place. So markers that
  are due before a move of the positions and after it take effect in the same way, and the events differ in the
  positions of the blocks alone.
Main exports: Marker.relocate, OpenBlock.relocate, Blocks.relocate, Event.relocate, Walk.relocate, Blocks.Steady,
  Walk.reconcile_relocate, Walk.closing_relocate
-/
import Mathlib.Data.List.Find
import ScriptBytecode.Proofs.Walk.Frame

namespace ScriptBytecode

variable (f : Nat → Nat)

/-- The marker with its positions moved. -/
def Marker.relocate (m : Marker) : Marker :=
  { m with position := f m.position, creator := f m.creator, blockEnd := f m.blockEnd }

/-- The block with its positions moved. -/
def OpenBlock.relocate (b : OpenBlock) : OpenBlock :=
  { b with creator := f b.creator, start := f b.start, stop := f b.stop }

/-- Blocks with their positions moved. -/
def Blocks.relocate (blocks : Blocks) : Blocks :=
  { blocks with pending := blocks.pending.map (·.relocate f), chain := blocks.chain.map (·.relocate f) }

/-- The event with the positions of its block moved. -/
def Event.relocate : Event → Event
  | .opened block header => .opened (block.relocate f) header
  | .alternative block => .alternative (block.relocate f)
  | e => e

/-- The walk with the positions of its blocks moved. -/
def Walk.relocate (walk : Walk) : Walk :=
  { walk with blocks := walk.blocks.relocate f, events := walk.events.map (·.relocate f) }

namespace Blocks

/-- The same markers are due at one horizon and, once positions have moved, at another; and the `do` loops among them
    begin in the same order. -/
structure Steady (horizon horizon' : Horizon) (pending : List Marker) : Prop where
  due : ∀ m ∈ pending, horizon'.reaches (f m.position) = horizon.reaches m.position
  order : ∀ a ∈ pending.filter (isDue horizon true), ∀ b ∈ pending.filter (isDue horizon true),
    beginsNoLater (a.relocate f) (b.relocate f) = beginsNoLater a b

variable {f} {horizon horizon' : Horizon} {blocks : Blocks}

theorem Steady.mono {pending smaller : List Marker} (h : Steady f horizon horizon' pending)
    (hsub : smaller.Sublist pending) : Steady f horizon horizon' smaller where
  due m hm := h.due m (hsub.subset hm)
  order a ha b hb := h.order a ((hsub.filter _).subset ha) b ((hsub.filter _).subset hb)

theorem isDue_relocate {deferred : Bool} {m : Marker}
    (h : horizon'.reaches (f m.position) = horizon.reaches m.position) :
    isDue horizon' deferred (m.relocate f) = isDue horizon deferred m := by
  simp only [isDue, Marker.relocate, h]

/-- Predicates that agree on a list take the same element out of it. -/
theorem eraseP_congr {pending : List Marker} {p q : Marker → Bool} (h : ∀ m ∈ pending, p m = q m) :
    pending.eraseP p = pending.eraseP q := by
  induction pending with
  | nil => rfl
  | cons m rest ih =>
      rw [List.eraseP_cons, List.eraseP_cons, h m (List.mem_cons_self ..),
        ih fun m' hm' => h m' (List.mem_cons_of_mem _ hm')]

theorem isEndOf_relocate (id : Nat) (m : Marker) : isEndOf id (m.relocate f) = isEndOf id m := rfl

theorem takeBegins_relocate (h : Steady f horizon horizon' blocks.pending) (deferred : Bool) :
    (blocks.relocate f).takeBegins horizon' deferred =
      ((blocks.takeBegins horizon deferred).1.map (·.relocate f),
        (blocks.takeBegins horizon deferred).2.relocate f) := by
  have hdue : ∀ m ∈ blocks.pending, isDue horizon' deferred (m.relocate f) = isDue horizon deferred m :=
    fun m hm => isDue_relocate (h.due m hm)
  have hready : (blocks.relocate f).pending.filter (isDue horizon' deferred) =
      (blocks.pending.filter (isDue horizon deferred)).map (·.relocate f) := by
    rw [relocate, List.filter_map]
    exact congrArg _ (List.filter_congr hdue)
  have hwaiting : (blocks.relocate f).pending.filter (fun m => !isDue horizon' deferred m) =
      (blocks.pending.filter fun m => !isDue horizon deferred m).map (·.relocate f) := by
    rw [relocate, List.filter_map]
    exact congrArg _ (List.filter_congr fun m hm => congrArg not (hdue m hm))
  apply Prod.ext
  · cases deferred with
    | false => rw [takeBegins_plain, takeBegins_plain, hready]
    | true =>
        rw [takeBegins_deferred, takeBegins_deferred, hready]
        exact (List.map_mergeSort fun a ha b hb => (h.order a ha b hb).symm).symm
  · rw [takeBegins_rest, takeBegins_rest, hwaiting]
    rfl

theorem innermost?_relocate (blocks : Blocks) :
    (blocks.relocate f).innermost? = blocks.innermost?.map (·.relocate f) := by
  simp [innermost?, relocate]

theorem pendingEnd?_relocate (blocks : Blocks) (id : Nat) :
    (blocks.relocate f).pendingEnd? id = (blocks.pendingEnd? id).map (·.relocate f) := by
  rw [pendingEnd?, pendingEnd?, relocate, List.find?_map]
  rfl

theorem innermostWhere?_relocate (blocks : Blocks) (condition : BlockKind → Bool) :
    (blocks.relocate f).innermostWhere? condition = (blocks.innermostWhere? condition).map (·.relocate f) := by
  rw [innermostWhere?, innermostWhere?, relocate, List.find?_map]
  rfl

theorem isInside_relocate (blocks : Blocks) (kind : BlockKind) :
    (blocks.relocate f).isInside kind = blocks.isInside kind := by
  simp [isInside, relocate, OpenBlock.relocate, Function.comp_def]

theorem cancelEnd_relocate (blocks : Blocks) (id : Nat) :
    (blocks.relocate f).cancelEnd id =
      ((blocks.cancelEnd id).1.map (·.relocate f), (blocks.cancelEnd id).2.relocate f) := by
  have herase : (blocks.relocate f).pending.eraseP (isEndOf id) =
      (blocks.pending.eraseP (isEndOf id)).map (·.relocate f) := by
    rw [relocate, List.eraseP_map]
    rfl
  rw [cancelEnd, cancelEnd, pendingEnd?_relocate, herase]
  rfl

theorem leave_relocate (blocks : Blocks) (id : Nat) :
    ((blocks.relocate f).leave id).2 = (blocks.leave id).2.relocate f := by
  have hdrop : (blocks.relocate f).chain.dropWhile (·.id != id) =
      (blocks.chain.dropWhile (·.id != id)).map (·.relocate f) := by
    rw [relocate, List.dropWhile_map]
    rfl
  rw [leave, leave, hdrop]
  cases blocks.chain.dropWhile (·.id != id) <;> rfl

theorem takeEnd?_relocate
    (h : ∀ m ∈ blocks.pending, horizon'.reaches (f m.position) = horizon.reaches m.position) :
    (blocks.relocate f).takeEnd? horizon' =
      (blocks.takeEnd? horizon).map fun taken => (taken.1.relocate f, taken.2.relocate f) := by
  rw [takeEnd?, takeEnd?, innermost?_relocate]
  cases blocks.innermost? with
  | none => rfl
  | some top =>
      have hready : ∀ m ∈ blocks.pending,
          ((fun m => isEndOf top.id m && horizon'.reaches m.position) ∘ (·.relocate f)) m =
            (isEndOf top.id m && horizon.reaches m.position) := fun m hm => by
        rw [Function.comp_apply, isEndOf_relocate, ← h m hm]
        rfl
      have hfind : (blocks.relocate f).pending.find? (fun m => isEndOf top.id m && horizon'.reaches m.position) =
          (blocks.pending.find? fun m => isEndOf top.id m && horizon.reaches m.position).map (·.relocate f) := by
        rw [relocate, List.find?_map]
        exact congrArg _ (List.find?_congr hready)
      have herase : (blocks.relocate f).pending.eraseP
            (fun m => isEndOf top.id m && horizon'.reaches m.position) =
          (blocks.pending.eraseP fun m => isEndOf top.id m && horizon.reaches m.position).map (·.relocate f) := by
        rw [relocate, List.eraseP_map]
        exact congrArg _ (eraseP_congr hready)
      simp only [Option.map_some, Option.bind_eq_bind, Option.bind_some, OpenBlock.relocate]
      rw [hfind, herase]
      cases blocks.pending.find? fun m => isEndOf top.id m && horizon.reaches m.position <;> rfl

theorem blockedEnd?_relocate
    (h : ∀ m ∈ blocks.pending, horizon'.reaches (f m.position) = horizon.reaches m.position) :
    (blocks.relocate f).blockedEnd? horizon' = blocks.blockedEnd? horizon := by
  have hids : (blocks.relocate f).chain.tail.reverse.map (·.id) = blocks.chain.tail.reverse.map (·.id) := by
    simp [relocate, OpenBlock.relocate, ← List.map_tail, Function.comp_def]
  rw [blockedEnd?, blockedEnd?, hids]
  apply List.find?_congr
  intro id _
  rw [pendingEnd?_relocate]
  cases hfind : blocks.pendingEnd? id with
  | none => rfl
  | some m => exact h m (List.mem_of_find?_eq_some hfind)

/-!
### Queueing
-/

theorem queueBegin_relocate (blocks : Blocks) (kind : BlockKind) (position creator stop : Nat)
    (text : Option String) (deferred : Bool) :
    ((blocks.relocate f).queueBegin kind (f position) (f creator) (f stop) text deferred).2 =
      (blocks.queueBegin kind position creator stop text deferred).2.relocate f := by
  simp [queueBegin, relocate, Marker.relocate]

theorem creator?_relocate (blocks : Blocks) (id : Nat) :
    (blocks.relocate f).creator? id = (blocks.creator? id).map f := by
  have hchain : ((blocks.relocate f).chain.reverse.find? (·.id == id)) =
      (blocks.chain.reverse.find? (·.id == id)).map (·.relocate f) := by
    rw [relocate, ← List.map_reverse, List.find?_map]
    rfl
  have hpending : ((blocks.relocate f).pending.find? (·.id == id)) =
      (blocks.pending.find? (·.id == id)).map (·.relocate f) := by
    rw [relocate, List.find?_map]
    rfl
  rw [creator?, creator?, hchain, hpending, Option.map_or]
  simp only [Option.map_map]
  rfl

theorem queueEnd_relocate (blocks : Blocks) (kind : BlockKind) (id position : Nat) (text : Option String) :
    (blocks.relocate f).queueEnd kind id (f position) text = (blocks.queueEnd kind id position text).relocate f := by
  have hcreator : ((blocks.creator? id).map f).getD (f position) = f ((blocks.creator? id).getD position) :=
    Option.getD_map ..
  rw [queueEnd, queueEnd, creator?_relocate, hcreator]
  simp [relocate, Marker.relocate]

theorem queueBlock_relocate (blocks : Blocks) (kind : BlockKind) (position creator stop : Nat)
    (text : Option String) :
    ((blocks.relocate f).queueBlock kind (f position) (f creator) (f stop) text).2 =
      (blocks.queueBlock kind position creator stop text).2.relocate f := by
  have hbegin := queueBegin_relocate (f := f) blocks kind position creator stop text false
  exact (congrArg (·.queueEnd kind blocks.nextId (f stop) none) hbegin).trans (queueEnd_relocate ..)

end Blocks

/-!
### Markers that take effect
-/

namespace Walk

variable {f} {horizon horizon' : Horizon}

theorem dropIf_relocate (walk : Walk) : (walk.relocate f).dropIf = walk.dropIf.relocate f := by
  rw [dropIf, dropIf, relocate, Blocks.innermost?_relocate]
  cases walk.blocks.innermost? with
  | none => rfl
  | some top =>
      simp only [Option.map_some, OpenBlock.relocate, Blocks.cancelEnd_relocate, Blocks.leave_relocate]
      split <;> rfl

theorem emit_relocate (walk : Walk) (e : Event) :
    (walk.relocate f).emit (e.relocate f) = (walk.emit e).relocate f := by
  simp [emit, relocate]

/-- A block that opens, with its event. -/
theorem emit_enter_relocate (walk : Walk) (e : Event) (m : Marker) :
    ({ (walk.relocate f).emit (e.relocate f) with
        blocks := (walk.relocate f).blocks.enter (m.relocate f) } : Walk) =
      ({ walk.emit e with blocks := walk.blocks.enter m } : Walk).relocate f := by
  rw [emit_relocate]
  rfl

theorem enter_relocate (walk : Walk) (m : Marker) :
    (walk.relocate f).enter (m.relocate f) = (walk.enter m).relocate f := by
  have hkind : (m.relocate f).kind = m.kind := rfl
  unfold enter
  rw [hkind]
  split
  · exact emit_relocate walk (.broke (m.text.getD "break;"))
  · rw [dropIf_relocate]
    exact emit_enter_relocate walk.dropIf (.alternative m.block) m
  · exact emit_enter_relocate walk (.opened m.block (m.text.getD "")) m

theorem close_relocate (walk : Walk) (kind : BlockKind) (id : Nat) (footer : Option String) :
    (walk.relocate f).close kind id footer = (walk.close kind id footer).relocate f := by
  simp [close, relocate, emit, Event.relocate, Blocks.leave_relocate]

theorem foldl_enter_relocate (markers : List Marker) (walk : Walk) :
    (markers.map (·.relocate f)).foldl enter (walk.relocate f) = (markers.foldl enter walk).relocate f := by
  induction markers generalizing walk with
  | nil => rfl
  | cons m rest ih => rw [List.map_cons, List.foldl_cons, List.foldl_cons, enter_relocate, ih]

theorem openDue_relocate {walk : Walk} (h : Blocks.Steady f horizon horizon' walk.blocks.pending)
    (deferred : Bool) :
    (walk.relocate f).openDue horizon' deferred = (walk.openDue horizon deferred).relocate f := by
  have htaken := Blocks.takeBegins_relocate h deferred
  rw [openDue_eq, openDue_eq, ← foldl_enter_relocate]
  simp only [relocate, htaken]

theorem closeInside_relocate (outer bound : Nat) (walk : Walk) :
    (walk.relocate f).closeInside outer bound = (walk.closeInside outer bound).relocate f := by
  induction bound generalizing walk with
  | zero => rfl
  | succ bound ih =>
      have hinner : (walk.relocate f).blocks.innermost? = walk.blocks.innermost?.map (·.relocate f) :=
        Blocks.innermost?_relocate walk.blocks
      unfold closeInside
      rw [hinner]
      cases walk.blocks.innermost? with
      | none => rfl
      | some top =>
          have hcancel : (walk.relocate f).blocks.cancelEnd (top.relocate f).id = _ :=
            Blocks.cancelEnd_relocate walk.blocks top.id
          have hfooter : ((walk.blocks.cancelEnd top.id).1.map (·.relocate f)).bind (·.text) =
              (walk.blocks.cancelEnd top.id).1.bind (·.text) := by
            cases (walk.blocks.cancelEnd top.id).1 <;> rfl
          by_cases hid : top.id = outer
          · simp only [Option.map_some, OpenBlock.relocate, hid, if_true]
          · simp only [Option.map_some, hcancel, hfooter]
            rw [if_neg hid, if_neg (show (top.relocate f).id ≠ outer from hid), ← ih, ← close_relocate]
            rfl

theorem closeDue_relocate {walk : Walk} (h : Blocks.Steady f horizon horizon' walk.blocks.pending)
    (bound : Nat) :
    (walk.relocate f).closeDue horizon' bound = (walk.closeDue horizon bound).relocate f := by
  induction bound generalizing walk with
  | zero => rfl
  | succ bound ih =>
      have htake : (walk.relocate f).blocks.takeEnd? horizon' = _ := Blocks.takeEnd?_relocate h.due
      have hblocked : (walk.relocate f).blocks.blockedEnd? horizon' = _ := Blocks.blockedEnd?_relocate h.due
      have hlength : (walk.relocate f).blocks.chain.length = walk.blocks.chain.length :=
        List.length_map ..
      unfold closeDue
      rw [htake, hblocked, hlength]
      cases htaken : walk.blocks.takeEnd? horizon with
      | some taken =>
          have hnext := close_relocate (f := f) { walk with blocks := taken.2 } taken.1.kind taken.1.id taken.1.text
          exact (congrArg _ hnext).trans (ih (h.mono (shrinks_closeTaken htaken).1))
      | none =>
          cases walk.blocks.blockedEnd? horizon with
          | none => rfl
          | some outer =>
              simp only [Option.map_none, closeInside_relocate]
              exact ih (h.mono (shrinks_closeInside ..).1)

theorem closeAll_relocate (bound : Nat) (walk : Walk) :
    (walk.relocate f).closeAll bound = (walk.closeAll bound).relocate f := by
  induction bound generalizing walk with
  | zero => rfl
  | succ bound ih =>
      have hinner : (walk.relocate f).blocks.innermost? = walk.blocks.innermost?.map (·.relocate f) :=
        Blocks.innermost?_relocate walk.blocks
      have htake : (walk.relocate f).blocks.takeEnd? .unbounded =
          (walk.blocks.takeEnd? .unbounded).map fun taken => (taken.1.relocate f, taken.2.relocate f) :=
        Blocks.takeEnd?_relocate fun _ _ => rfl
      unfold closeAll
      rw [htake, hinner]
      cases walk.blocks.takeEnd? .unbounded with
      | some taken =>
          have hnext := close_relocate (f := f) { walk with blocks := taken.2 } taken.1.kind taken.1.id taken.1.text
          exact (congrArg _ hnext).trans (ih _)
      | none =>
          cases walk.blocks.innermost? with
          | none => rfl
          | some top => exact (congrArg _ (close_relocate walk top.kind top.id none)).trans (ih _)

/-- Markers take effect in the same way when the same ones are due. -/
theorem reconcile_relocate {walk : Walk} {cursor cursor' : Nat}
    (h : Blocks.Steady f (.upTo cursor) (.upTo cursor') walk.blocks.pending) :
    (walk.relocate f).reconcile cursor' = (walk.reconcile cursor).relocate f := by
  unfold reconcile
  have hlength : ∀ walk : Walk, (walk.relocate f).blocks.chain.length = walk.blocks.chain.length :=
    fun walk => List.length_map ..
  have hplain := h.mono ((openDue_pending walk (.upTo cursor) false).trans List.filter_sublist)
  simp only [openDue_relocate h, hlength, closeDue_relocate hplain]
  exact openDue_relocate (hplain.mono (shrinks_closeDue ..).1) true

/-- What is left at the end takes effect in the same way, if `do` loops begin in the same order. -/
theorem closing_relocate {walk : Walk}
    (h : Blocks.Steady f .unbounded .unbounded walk.blocks.pending) :
    (walk.relocate f).closing = walk.closing.relocate f := by
  unfold closing
  have hlength : ∀ walk : Walk, (walk.relocate f).blocks.chain.length = walk.blocks.chain.length :=
    fun walk => List.length_map ..
  have hplain := h.mono ((openDue_pending walk .unbounded false).trans List.filter_sublist)
  simp only [openDue_relocate h, openDue_relocate hplain, hlength, closeAll_relocate]

end Walk

end ScriptBytecode
