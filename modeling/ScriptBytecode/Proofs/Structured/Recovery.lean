/-
Module: ScriptBytecode.Proofs.Structured.Recovery
Purpose: The lines of structured code are recovered by a walk. By induction over the shape of the code, a walk over a
  run of instructions writes the lines that the run stands for and leaves the blocks around it as they were.
Main exports: Walk.run, Ahead, loopBegins, Around, Setting.Covers, Recovered, Laid.recovered
-/
import ScriptBytecode.Proofs.Structured.Steps
import ScriptBytecode.Proofs.Structured.SwitchEnd

namespace ScriptBytecode

namespace Walk

/-- A walk over instructions, the first of which has the given index. -/
def run (setting : Setting) (index : Nat) (instructions : List Instruction) (walk : Walk) : Walk :=
  (instructions.zipIdx index).foldl (fun walk (i, index) => walk.step setting i index) walk

@[simp] theorem run_nil (setting : Setting) (index : Nat) (walk : Walk) :
    run setting index [] walk = walk := rfl

theorem run_cons (setting : Setting) (index : Nat) (i : Instruction) (rest : List Instruction)
    (walk : Walk) :
    run setting index (i :: rest) walk = run setting (index + 1) rest (walk.step setting i index) := by
  simp [run]

theorem run_append (setting : Setting) (index : Nat) (is js : List Instruction) (walk : Walk) :
    run setting index (is ++ js) walk = run setting (index + is.length) js (run setting index is walk) := by
  simp [run, List.zipIdx_append]

end Walk

/-!
### Loops ahead
-/

/-- The markers take effect at a position or after it. -/
def Ahead (position : Nat) (markers : List Marker) : Prop := ∀ m ∈ markers, position ≤ m.position

namespace Ahead

variable {position first : Nat} {markers others : List Marker}

theorem append (h : Ahead position markers) (h' : Ahead position others) :
    Ahead position (markers ++ others) :=
  List.forall_mem_append.2 ⟨h, h'⟩

theorem mono (h : Ahead first markers) (hle : position ≤ first) : Ahead position markers :=
  fun m hm => Nat.le_trans hle (h m hm)

theorem concat (h : Ahead position markers) {m : Marker} (hm : position ≤ m.position) :
    Ahead position (markers ++ [m]) :=
  h.append (List.forall_mem_singleton.2 hm)

end Ahead

/-- The begin of the `do` loop that a conditional jump ends. -/
def Instruction.loopBegin (id : Nat) (i : Instruction) : Marker where
  kind := .loop
  side := .opening
  position := i.jumpTarget?.getD 0
  creator := i.position
  id := id
  blockEnd := i.endPosition
  text := some "do"
  deferred := true

/-- The begins of the `do` loops that some instructions end. Numbers of blocks are given by where the loops end. -/
def loopBegins (number : Nat → Nat) (instructions : List Instruction) : List Marker :=
  (instructions.filter (·.isDoUntil)).map fun i => i.loopBegin (number i.endPosition)

section

variable {number : Nat → Nat} {is js : List Instruction} {i : Instruction}

@[simp] theorem loopBegins_nil : loopBegins number [] = [] := rfl

@[simp] theorem loopBegins_append : loopBegins number (is ++ js) = loopBegins number is ++ loopBegins number js := by
  simp [loopBegins]

theorem loopBegins_cons_of_pos (h : i.isDoUntil = true) :
    loopBegins number (i :: is) = i.loopBegin (number i.endPosition) :: loopBegins number is := by
  simp [loopBegins, h]

theorem loopBegins_cons_of_neg (h : i.isDoUntil = false) :
    loopBegins number (i :: is) = loopBegins number is := by
  simp [loopBegins, h]

/-- Loops are queued by their ends. -/
theorem Consecutive.pairwise_loopBegins {start stop : Nat} (h : Consecutive start is stop) :
    (loopBegins number is).Pairwise fun a b => a.blockEnd < b.blockEnd :=
  List.pairwise_map.2 (h.pairwise_endPosition.filter _)

/-- The loops of a run begin inside it. -/
theorem ahead_of_stays {loop : Option Loop} {start stop : Nat} (h : ∀ i ∈ is, i.Stays loop start stop) :
    Ahead start (loopBegins number is) := by
  intro m hm
  obtain ⟨i, hi, rfl⟩ := List.mem_map.1 hm
  obtain ⟨hi, huntil⟩ := List.mem_filter.1 hi
  cases htarget : i.jumpTarget? with
  | none =>
      rw [Instruction.isDoUntil_of_jumpTarget htarget] at huntil
      cases huntil
  | some target =>
      rcases h i hi target htarget with ⟨hle, -⟩ | ⟨hnot, -⟩
      · simpa [Instruction.loopBegin, htarget] using hle
      · rw [hnot] at huntil
        cases huntil

theorem Laid.ahead {words : Vocabulary} {scope : Scope} {options : Options} {loop : Option Loop}
    {depth start stop : Nat} {rows : List Row}
    (h : Laid words scope options loop depth start is stop rows) :
    Ahead start (loopBegins number is) :=
  ahead_of_stays h.stays

theorem Chained.ahead {words : Vocabulary} {scope : Scope} {options : Options} {depth start exit : Nat}
    {arms : List Arm} (h : Chained words scope exit start arms)
    (bodies : ∀ arm ∈ arms, Laid words scope options (some ⟨exit, none⟩) depth arm.label.endPosition arm.body
      arm.leave.position arm.rows) : Ahead start (loopBegins number (arms.flatMap Arm.code)) := by
  have hstays : ∀ i ∈ arms.flatMap Arm.code, i.Stays none start exit :=
    h.stays (fun arm harm => (bodies arm harm).consecutive) fun arm harm => (bodies arm harm).stays
  exact ahead_of_stays hstays

end

/-!
### Runs
-/

/-- How the open blocks lie around a run: the innermost one reaches as far as the run, every loop and `switch` stops
    behind it, no loop was created inside it, and the innermost loop or `switch` has the exits that the run may use. -/
structure Around (chain : List OpenBlock) (loop : Option Loop) (start stop : Nat) : Prop where
  reach : ∀ b, chain.head? = some b → stop ≤ b.stop
  stops : ∀ b ∈ chain, b.kind.isBreakable = true → stop < b.stop
  creators : ∀ b ∈ chain, b.kind = .loop → b.creator < start ∨ stop ≤ b.creator
  exits : ∀ l, loop = some l → ∃ b, chain.find? (·.kind.isBreakable) = some b ∧ b.stop = l.stop ∧
    ∀ guard, l.guard = some guard → b.kind = .loop ∧ b.creator = guard ∧ guard < start

namespace Around

variable {chain : List OpenBlock} {loop : Option Loop} {start stop first last : Nat}

/-- Less of a run. -/
theorem mono (h : Around chain loop start stop) (hfirst : start ≤ first) (hlast : last ≤ stop) :
    Around chain loop first last where
  reach b hb := Nat.le_trans hlast (h.reach b hb)
  stops b hb hkind := Nat.lt_of_le_of_lt hlast (h.stops b hb hkind)
  creators b hb hkind := (h.creators b hb hkind).imp (Nat.lt_of_lt_of_le · hfirst) (Nat.le_trans hlast)
  exits l hl := by
    obtain ⟨b, hb, hstop, hguard⟩ := h.exits l hl
    refine ⟨b, hb, hstop, fun guard hl => ?_⟩
    obtain ⟨hkind, hcreator, hlt⟩ := hguard guard hl
    exact ⟨hkind, hcreator, Nat.lt_of_lt_of_le hlt hfirst⟩

/-- A block that `break` does not leave and that reaches as far as the run changes nothing. -/
theorem cons (h : Around chain loop start stop) {b : OpenBlock} (hb : b.kind.isBreakable = false)
    (hreach : stop ≤ b.stop) : Around (b :: chain) loop start stop where
  reach c hc := Option.some.inj hc ▸ hreach
  stops := List.forall_mem_cons.2 ⟨by simp [hb], h.stops⟩
  creators := by
    refine List.forall_mem_cons.2 ⟨fun hkind => ?_, h.creators⟩
    rw [hkind] at hb
    cases hb
  exits l hl := by
    rw [List.find?_cons_of_neg (by simp [hb])]
    exact h.exits l hl

/-- Inside a loop or `switch` the exits are those of the block. -/
theorem enter (h : Around chain loop start stop) {b : OpenBlock} {guard : Option Nat}
    (hfirst : start ≤ first) (hlast : last < b.stop) (hstop : last ≤ stop)
    (hkind : b.kind.isBreakable = true)
    (hcreator : b.kind = .loop → b.creator < first ∨ last ≤ b.creator)
    (hguard : ∀ g, guard = some g → b.kind = .loop ∧ b.creator = g ∧ g < first) :
    Around (b :: chain) (some ⟨b.stop, guard⟩) first last where
  reach c hc := Option.some.inj hc ▸ Nat.le_of_lt hlast
  stops := List.forall_mem_cons.2 ⟨fun _ => hlast, (h.mono hfirst hstop).stops⟩
  creators := List.forall_mem_cons.2 ⟨hcreator, (h.mono hfirst hstop).creators⟩
  exits l hl := by
    cases hl
    exact ⟨b, List.find?_cons_of_pos hkind, rfl, hguard⟩

/-- Loops stop behind the run. -/
theorem loops (h : Around chain loop start stop) : ∀ b ∈ chain, b.kind = .loop → stop < b.stop :=
  fun b hb hkind => h.stops b hb (by simp [hkind, BlockKind.isBreakable])

end Around

section

variable {words : Vocabulary} {scope : Scope} {options : Options} {loop : Option Loop}
  {depth start first stop : Nat} {is : List Instruction} {rows : List Row} {number : Nat → Nat}
  {body : Body} {guard last : Instruction} {target : Nat} {condition : String}

/-- Whether a conditional jump guards a `while` loop is told by the instruction that ends at its target. -/
theorem IsBranch.isWhileGuard (h : IsBranch words scope guard start target condition)
    (hfound : body.endingAt? target = some last) :
    body.isWhileGuard guard = (decide (guard.endPosition < target) &&
      (last.opcode == .jump && last.jumpTarget? == some start)) := by
  obtain ⟨t, c, remark, htoken, rfl, -⟩ := h.token
  simp [Body.isWhileGuard, htoken, hfound, h.position]

/-- The guard of an `if` is not taken for that of a `while` loop: the block after it does not end with a jump back
    to it. -/
theorem IsBranch.isWhileGuard_of_laid {chain : List OpenBlock}
    (h : IsBranch words scope guard start target condition)
    (hbody : Laid words scope options loop depth guard.endPosition is target rows)
    (haround : Around chain loop start stop) (htarget : target ≤ stop)
    (hending : ∀ i ∈ is, body.endingAt? i.endPosition = some i) : body.isWhileGuard guard = false := by
  have hlt := h.lt
  rcases Nat.lt_or_ge guard.endPosition target with hforward | hback
  · obtain ⟨last, hlast, hend⟩ := hbody.consecutive.exists_last hforward
    rw [h.isWhileGuard (hend ▸ hending last hlast)]
    have hne : last.jumpTarget? ≠ some start := by
      intro hjump
      rcases hbody.stays last hlast start hjump with ⟨hle, -⟩ | ⟨-, l, hl, hexit⟩
      · omega
      · obtain ⟨b, hb, hstop, hguard⟩ := haround.exits l hl
        have hb := haround.stops b (List.mem_of_find?_eq_some hb) (by simpa using List.find?_some hb)
        rcases hexit with hexit | hexit
        · exact Nat.lt_irrefl _ (hguard start hexit).2.2
        · omega
    simp [hne]
  · obtain ⟨t, c, remark, htoken, rfl, -⟩ := h.token
    simp [Body.isWhileGuard, htoken, Nat.not_lt.2 hback]

end

/-- What a walk over instructions from an index on needs of the body: they stand there, and none is the `return` that
    compilers add. -/
structure Setting.Covers (setting : Setting) (index : Nat) (is after : List Instruction) : Prop
    extends setting.body.Holds index is after where
  explicit : ∀ k < index + is.length, setting.body.isImplicitReturn k = false

namespace Setting.Covers

variable {setting : Setting} {index : Nat} {i : Instruction} {is js after : List Instruction}

theorem head (h : setting.Covers index (i :: is) after) : setting.body.isImplicitReturn index = false :=
  h.explicit index (by simp)

theorem tail (h : setting.Covers index (i :: is) after) : setting.Covers (index + 1) is after where
  toHolds := h.toHolds.tail
  explicit k hk := h.explicit k (by rw [List.length_cons]; omega)

theorem left (h : setting.Covers index (is ++ js) after) : setting.Covers index is (js ++ after) where
  toHolds := h.toHolds.left
  explicit k hk := h.explicit k (by rw [List.length_append]; omega)

theorem right (h : setting.Covers index (is ++ js) after) : setting.Covers (index + is.length) js after where
  toHolds := h.toHolds.right
  explicit k hk := h.explicit k (by rw [List.length_append]; omega)

end Setting.Covers

/-- A walk over a run writes some lines. It leaves the blocks around the run, their ends and the loops behind the run
    as they were. -/
def Recovered (setting : Setting) (options : Options) (number : Nat → Nat) (loop : Option Loop)
    (depth start : Nat) (is : List Instruction) (stop : Nat) (rows : List Row) : Prop :=
  ∀ (index : Nat) (walk : Walk) (later ends : List Marker) (chain : List OpenBlock)
    (before : List Row) (after : List Instruction),
    Stage options walk (loopBegins number is ++ later) ends chain before →
    Around chain loop start stop → chain.length = depth → Ahead stop later → Ahead stop ends →
    setting.Covers index is after → Unlabelled after →
    ∃ next, Walk.run setting index is (walk.reconcile start) = next.reconcile stop ∧
      Stage options next later ends chain (before ++ rows)

namespace Recovered

variable {setting : Setting} {options : Options} {number : Nat → Nat} {loop : Option Loop}
  {depth start middle stop : Nat} {is js : List Instruction} {inner rows : List Row}

/-- A step over the first instruction of a run, at which no marker is due. -/
theorem run_cons {walk next : Walk} {loops ends : List Marker} {chain : List OpenBlock}
    {before : List Row} {index first : Nat} {i : Instruction}
    (hstage : Stage options walk loops ends chain before) (hloops : Ahead first loops)
    (hends : Ahead first ends) (hlt : start < first)
    (hstep : walk.step setting i index = next.reconcile i.endPosition) :
    Walk.run setting index (i :: is) (walk.reconcile start) =
      Walk.run setting (index + 1) is (next.reconcile i.endPosition) := by
  rw [Walk.run_cons, hstage.reconcile_of_quiet fun m hm =>
    Nat.lt_of_lt_of_le hlt ((hloops.append hends) m hm), hstep]

theorem nil : Recovered setting options number loop depth start [] start [] := by
  intro index walk later ends chain before tail hstage _ _ _ _ _ _
  exact ⟨walk, rfl, by simpa using hstage⟩

/-- An instruction that writes lines and neither opens nor closes anything. -/
theorem single {i : Instruction} {texts : List String} (hi : i.StandsAt start)
    (huntil : i.isDoUntil = false)
    (hstep : ∀ {index : Nat} {walk : Walk} {loops ends : List Marker} {chain : List OpenBlock}
      {before : List Row}, Stage options walk loops ends chain before →
      Around chain loop start i.endPosition → setting.body.isImplicitReturn index = false →
      ∃ next, walk.step setting i index = next.reconcile i.endPosition ∧
        Stage options next loops ends chain (before ++ rowsAt chain.length texts))
    (rest : Laid setting.words setting.scope options loop depth i.endPosition is stop rows)
    (hrest : Recovered setting options number loop depth i.endPosition is stop rows) :
    Recovered setting options number loop depth start (i :: is) stop
      (rowsAt depth texts ++ rows) := by
  intro index walk later ends chain before tail hstage haround hdepth hlater hends hcovers htail
  subst hdepth
  have hstop := rest.consecutive.le
  rw [loopBegins_cons_of_neg huntil] at hstage
  obtain ⟨next, hnext, hwritten⟩ :=
    hstep hstage (haround.mono (Nat.le_refl _) hstop) hcovers.head
  obtain ⟨final, hrun, hfinal⟩ := hrest _ next later ends chain _ _ hwritten
    (haround.mono (Nat.le_of_lt hi.lt) (Nat.le_refl _)) rfl hlater hends hcovers.tail htail
  refine ⟨final, ?_, by simpa only [List.append_assoc] using hfinal⟩
  rw [run_cons hstage (rest.ahead.append (hlater.mono hstop)) (hends.mono hstop) hi.lt hnext, hrun]

theorem ifThen {guard : Instruction} {condition : String}
    (branch : IsBranch setting.words setting.scope guard start middle condition)
    (body : Laid setting.words setting.scope options loop (depth + 1) guard.endPosition is middle inner)
    (rest : Laid setting.words setting.scope options loop depth middle js stop rows)
    (hbody : Recovered setting options number loop (depth + 1) guard.endPosition is middle inner)
    (hrest : Recovered setting options number loop depth middle js stop rows) :
    Recovered setting options number loop depth start (guard :: (is ++ js)) stop
      (blockRows options depth s!"if({condition})" inner none ++ rows) := by
  intro index walk later ends chain before tail hstage haround hdepth hlater hends hcovers htail
  subst hdepth
  have hlt := branch.lt
  have hmiddle := body.consecutive.le
  have hstop := rest.consecutive.le
  have hforward : start < middle := by omega
  rw [loopBegins_cons_of_neg (branch.isDoUntil_of_lt hforward), loopBegins_append,
    List.append_assoc] at hstage
  have hguard : setting.body.isWhileGuard guard = false :=
    branch.isWhileGuard_of_laid body haround hstop fun i hi => hcovers.tail.left.endingAt? hi
  have hbehind : Ahead middle (loopBegins number js ++ later) := rest.ahead.append (hlater.mono hstop)
  have hends' : Ahead middle ends := hends.mono hstop
  obtain ⟨opened, id, e, hstep, he, hapart, hopened⟩ :=
    hstage.step_if branch hforward hguard hcovers.head
  obtain ⟨inside, hinside, hinner⟩ := hbody _ opened _ _ _ _ _ hopened
    ((haround.mono (Nat.le_of_lt hlt) hstop).cons rfl (Nat.le_refl _)) rfl hbehind
    (hends'.concat (Nat.le_of_eq he.position.symm)) hcovers.tail.left (rest.unlabelled htail)
  obtain ⟨closed, hclosed, houter⟩ :=
    hinner.closesQueued he.kind rfl he.id (Nat.le_of_eq he.position) hapart
  rw [he.text] at houter
  obtain ⟨final, hfinal, hend⟩ := hrest _ closed later ends chain _ _ houter
    (haround.mono (Nat.le_of_lt hforward) (Nat.le_refl _)) rfl hlater hends hcovers.tail.right htail
  refine ⟨final, ?_, by simpa only [blockRows, List.append_assoc] using hend⟩
  rw [run_cons hstage (body.ahead.append (hbehind.mono hmiddle)) (hends'.mono hmiddle) hlt hstep,
    Walk.run_append, hinside, hclosed, hfinal]

theorem ifElse {guard bypass : Instruction} {condition : String} {after : Nat} {ks : List Instruction}
    {other : List Row}
    (branch : IsBranch setting.words setting.scope guard start bypass.endPosition condition)
    (yes : Laid setting.words setting.scope options loop (depth + 1) guard.endPosition is middle inner)
    (yes_ne : guard.endPosition < middle) (jump : IsJump bypass middle after)
    (no : Laid setting.words setting.scope options loop (depth + 1) bypass.endPosition js after other)
    (no_ne : bypass.endPosition < after)
    (rest : Laid setting.words setting.scope options loop depth after ks stop rows)
    (hyes : Recovered setting options number loop (depth + 1) guard.endPosition is middle inner)
    (hno : Recovered setting options number loop (depth + 1) bypass.endPosition js after other)
    (hrest : Recovered setting options number loop depth after ks stop rows) :
    Recovered setting options number loop depth start (guard :: (is ++ bypass :: (js ++ ks))) stop
      (blockRows options depth s!"if({condition})"
        (inner ++ rowsAt depth options.elseBraces ++ other) none ++ rows) := by
  intro index walk later ends chain before tail hstage haround hdepth hlater hends hcovers htail
  subst hdepth
  have hlt := branch.lt
  have hover := jump.lt
  have hstop := rest.consecutive.le
  have hforward : start < bypass.endPosition := by omega
  rw [loopBegins_cons_of_neg (branch.isDoUntil_of_lt hforward), loopBegins_append,
    loopBegins_cons_of_neg jump.isDoUntil, loopBegins_append, List.append_assoc,
    List.append_assoc] at hstage
  have hcover := hcovers.tail.right
  have hguard : setting.body.isWhileGuard guard = false := by
    have hne : after ≠ start := by omega
    rw [branch.isWhileGuard (hcover.endingAt? (List.mem_cons_self ..)), jump.jumpTarget]
    simp [hne]
  have hafter : Ahead after (loopBegins number ks ++ later) := rest.ahead.append (hlater.mono hstop)
  have hsecond : Ahead bypass.endPosition (loopBegins number js ++ (loopBegins number ks ++ later)) :=
    no.ahead.append (hafter.mono (Nat.le_of_lt no_ne))
  have hends' : Ahead bypass.endPosition ends := hends.mono (by omega)
  obtain ⟨opened, id, e, hstep, he, hapart, hopened⟩ :=
    hstage.step_if branch hforward hguard hcovers.head
  have hendsIf : Ahead bypass.endPosition (ends ++ [e]) := hends'.concat (Nat.le_of_eq he.position.symm)
  obtain ⟨inside, hinside, hinner⟩ := hyes _ opened _ _ _ _ _ hopened
    ((haround.mono (Nat.le_of_lt hlt) (by omega)).cons rfl (Nat.le_of_lt hover)) rfl
    (hsecond.mono (Nat.le_of_lt hover)) (hendsIf.mono (Nat.le_of_lt hover)) hcovers.tail.left jump.unlabelled
  obtain ⟨second, id', e', hstep', he', hapart', hopened'⟩ := hinner.step_else jump hcover.head
    (fun b hb hkind => Nat.lt_of_le_of_lt hstop (haround.stops b hb hkind)) rfl he hapart rfl yes_ne no_ne
  obtain ⟨ahead, hahead, hother⟩ := hno _ second _ _ _ _ _ hopened'
    ((haround.mono (by omega) hstop).cons rfl (Nat.le_refl _)) rfl hafter
    ((hends.mono hstop).concat (Nat.le_of_eq he'.position.symm)) hcover.tail.left (rest.unlabelled htail)
  obtain ⟨closed, hclosed, houter⟩ :=
    hother.closesQueued he'.kind rfl he'.id (Nat.le_of_eq he'.position) hapart'
  rw [he'.text] at houter
  obtain ⟨final, hfinal, hend⟩ := hrest _ closed later ends chain _ _ houter
    (haround.mono (by omega) (Nat.le_refl _)) rfl hlater hends hcover.tail.right htail
  refine ⟨final, ?_, by simpa only [blockRows, List.append_assoc] using hend⟩
  rw [run_cons hstage (yes.ahead.append (hsecond.mono (by omega))) (hends'.mono (by omega)) hlt hstep,
    Walk.run_append, hinside, run_cons hinner hsecond hendsIf hover hstep', Walk.run_append, hahead,
    hclosed, hfinal]

theorem whileLoop {guard closing : Instruction} {condition : String}
    (branch : IsBranch setting.words setting.scope guard start closing.endPosition condition)
    (body : Laid setting.words setting.scope options (some ⟨closing.endPosition, some start⟩)
      (depth + 1) guard.endPosition is middle inner)
    (jump : IsJump closing middle start)
    (rest : Laid setting.words setting.scope options loop depth closing.endPosition js stop rows)
    (hbody : Recovered setting options number (some ⟨closing.endPosition, some start⟩) (depth + 1)
      guard.endPosition is middle inner)
    (hrest : Recovered setting options number loop depth closing.endPosition js stop rows) :
    Recovered setting options number loop depth start (guard :: (is ++ closing :: js)) stop
      (blockRows options depth s!"while({condition})" inner none ++ rows) := by
  intro index walk later ends chain before tail hstage haround hdepth hlater hends hcovers htail
  subst hdepth
  have hlt := branch.lt
  have hmiddle := body.consecutive.le
  have hclosing := jump.lt
  have hstop := rest.consecutive.le
  have hforward : start < closing.endPosition := by omega
  rw [loopBegins_cons_of_neg (branch.isDoUntil_of_lt hforward), loopBegins_append,
    loopBegins_cons_of_neg jump.isDoUntil, List.append_assoc] at hstage
  have hcover := hcovers.tail.right
  have hguard : setting.body.isWhileGuard guard = true := by
    have hnotEmpty : guard.endPosition < closing.endPosition := by omega
    rw [branch.isWhileGuard (hcover.endingAt? (List.mem_cons_self ..)), jump.jumpTarget, jump.opcode]
    simp [hnotEmpty]
  have hbehind : Ahead closing.endPosition (loopBegins number js ++ later) :=
    rest.ahead.append (hlater.mono hstop)
  have hends' : Ahead closing.endPosition ends := hends.mono hstop
  obtain ⟨opened, id, e, hstep, he, hapart, hopened⟩ :=
    hstage.step_while branch hforward hguard hcovers.head
  have hendsLoop : Ahead closing.endPosition (ends ++ [e]) :=
    hends'.concat (Nat.le_of_eq he.position.symm)
  obtain ⟨inside, hinside, hinner⟩ := hbody _ opened _ _ _ _ _ hopened
    (haround.enter (Nat.le_of_lt hlt) hclosing (by omega) rfl (fun _ => Or.inl hlt)
      fun g hg => ⟨rfl, Option.some.inj hg, by cases hg; exact hlt⟩)
    rfl (hbehind.mono (Nat.le_of_lt hclosing)) (hendsLoop.mono (Nat.le_of_lt hclosing))
    hcovers.tail.left jump.unlabelled
  have hstep' := hinner.step_closing jump hcover.head rfl rfl rfl
  obtain ⟨closed, hclosed, houter⟩ :=
    (hinner.pass closing none).closesQueued he.kind rfl he.id (Nat.le_of_eq he.position) hapart
  rw [he.text] at houter
  obtain ⟨final, hfinal, hend⟩ := hrest _ closed later ends chain _ _ houter
    (haround.mono (Nat.le_of_lt hforward) (Nat.le_refl _)) rfl hlater hends hcover.tail htail
  refine ⟨final, ?_, by simpa only [blockRows, List.append_assoc] using hend⟩
  rw [run_cons hstage (body.ahead.append (hbehind.mono (by omega))) (hends'.mono (by omega)) hlt hstep,
    Walk.run_append, hinside, run_cons hinner hbehind hendsLoop hclosing hstep', hclosed, hfinal]

theorem doUntil {test : Instruction} {condition : String}
    (body : Laid setting.words setting.scope options (some ⟨test.endPosition, none⟩) (depth + 1) start
      is middle inner)
    (branch : IsBranch setting.words setting.scope test middle start condition)
    (rest : Laid setting.words setting.scope options loop depth test.endPosition js stop rows)
    (hbody : Recovered setting options number (some ⟨test.endPosition, none⟩) (depth + 1) start is
      middle inner)
    (hrest : Recovered setting options number loop depth test.endPosition js stop rows) :
    Recovered setting options number loop depth start (is ++ test :: js) stop
      (blockRows options depth "do" inner (some s!"until({condition});") ++ rows) := by
  intro index walk later ends chain before tail hstage haround hdepth hlater hends hcovers htail
  subst hdepth
  have hmiddle := body.consecutive.le
  have htest := branch.lt
  have hstop := rest.consecutive.le
  have huntil : test.isDoUntil = true := by simp [branch.isDoUntil, hmiddle]
  rw [loopBegins_append, loopBegins_cons_of_pos huntil, List.append_assoc, List.cons_append] at hstage
  have hbehind : Ahead test.endPosition (loopBegins number js ++ later) :=
    rest.ahead.append (hlater.mono hstop)
  have hends' : Ahead test.endPosition ends := hends.mono hstop
  -- The loop is the outermost of those that begin here: it ends after the loops of its body.
  have hincreasing : (loopBegins number is ++ [test.loopBegin (number test.endPosition)]).Pairwise
      fun a b => a.blockEnd < b.blockEnd := by
    have hrun : Consecutive start (is ++ [test]) test.endPosition :=
      body.consecutive.append ⟨branch.position, branch.size, rfl⟩
    rw [← loopBegins_nil, ← loopBegins_cons_of_pos huntil, ← loopBegins_append]
    exact hrun.pairwise_loopBegins
  obtain ⟨opened, hopen, hopened⟩ := hstage.opensLoop body.ahead
    (fun m hm => Nat.lt_of_lt_of_le (by omega) ((hbehind.append hends') m hm)) rfl
    (by simp [Instruction.loopBegin, branch.jumpTarget]) hincreasing
  have hapart := hstage.apart _ (List.mem_append_right _ (List.mem_cons_self ..))
  obtain ⟨inside, hinside, hinner⟩ := hbody _ opened _ _ _ _ _ hopened
    (haround.enter (Nat.le_refl _) htest (by omega) rfl
      (fun _ => Or.inr (Nat.le_of_eq branch.position.symm)) fun g hg => by cases hg)
    rfl (hbehind.mono (Nat.le_of_lt htest)) (hends'.mono (Nat.le_of_lt htest)) hcovers.left branch.unlabelled
  have hcreators : ∀ b ∈ chain, b.kind = .loop → b.creator ≠ middle := by
    intro b hb hkind
    have hb := haround.creators b hb hkind
    omega
  obtain ⟨closed, hclosed, houter⟩ := hinner.step_until branch hmiddle hcovers.right.head rfl
    branch.position hcreators hapart
  obtain ⟨final, hfinal, hend⟩ := hrest _ closed later ends chain _ _ houter
    (haround.mono (by omega) (Nat.le_refl _)) rfl hlater hends hcovers.right.tail htail
  refine ⟨final, ?_, by
    simpa only [blockRows, List.append_assoc, Instruction.loopBegin, Option.getD_some] using hend⟩
  rw [Walk.run_append, hopen, hinside, run_cons hinner hbehind hends' htest hclosed, hfinal]

theorem forEach {head next pop : Instruction} {text : String}
    (iterator : IsIterator setting.words setting.scope head start pop.position text)
    (body : Laid setting.words setting.scope options (some ⟨pop.position, none⟩) (depth + 1)
      head.endPosition is middle inner)
    (advance : IsBare next middle .iteratorNext) (leave : IsBare pop next.endPosition .iteratorPop)
    (rest : Laid setting.words setting.scope options loop depth pop.endPosition js stop rows)
    (hbody : Recovered setting options number (some ⟨pop.position, none⟩) (depth + 1)
      head.endPosition is middle inner)
    (hrest : Recovered setting options number loop depth pop.endPosition js stop rows) :
    Recovered setting options number loop depth start (head :: (is ++ next :: pop :: js)) stop
      (blockRows options depth s!"foreach {text}" inner none ++ rows) := by
  intro index walk later ends chain before tail hstage haround hdepth hlater hends hcovers htail
  subst hdepth
  have hlt := iterator.lt
  have hmiddle := body.consecutive.le
  have hnext := advance.lt
  have hpop := leave.lt
  have hstop := rest.consecutive.le
  rw [loopBegins_cons_of_neg iterator.isDoUntil, loopBegins_append,
    loopBegins_cons_of_neg (Instruction.isDoUntil_of_jumpTarget advance.jumpTarget),
    loopBegins_cons_of_neg (Instruction.isDoUntil_of_jumpTarget leave.jumpTarget),
    List.append_assoc] at hstage
  have hcover := hcovers.tail.right
  have hbehind : Ahead pop.endPosition (loopBegins number js ++ later) :=
    rest.ahead.append (hlater.mono hstop)
  have hends' : Ahead pop.endPosition ends := hends.mono hstop
  obtain ⟨opened, id, hstep, hapart, hopened⟩ := hstage.step_iterator iterator hcovers.head
  obtain ⟨inside, hinside, hinner⟩ := hbody _ opened _ _ _ _ _ hopened
    (haround.enter (Nat.le_of_lt hlt) (Nat.lt_of_lt_of_eq hnext leave.position.symm) (by omega)
      rfl (fun hkind => by cases hkind) fun g hg => by cases hg)
    rfl (hbehind.mono (by omega)) (hends'.mono (by omega)) hcovers.tail.left (advance.unlabelled rfl)
  have hstepNext := hinner.step_bare advance (by decide) rfl rfl hcover.head
  obtain ⟨closed, hstepPop, houter⟩ := (hinner.pass next none).step_iteratorPop leave
    (congrArg some advance.opcode) hcover.tail.head rfl hapart
  obtain ⟨final, hfinal, hend⟩ := hrest _ closed later ends chain _ _ houter
    (haround.mono (by omega) (Nat.le_refl _)) rfl hlater hends hcover.tail.tail htail
  refine ⟨final, ?_, by simpa only [blockRows, List.append_assoc] using hend⟩
  rw [run_cons hstage (body.ahead.append (hbehind.mono (by omega))) (hends'.mono (by omega)) hlt hstep,
    Walk.run_append, hinside,
    run_cons hinner hbehind hends' (Nat.lt_trans hnext hpop) hstepNext,
    run_cons (hinner.pass next none) hbehind hends' hpop hstepPop, hfinal]

/-!
The arms of a `switch` are walked over one by one. All of them lie in the block of the `switch`, which stops where the
last arm does, and the blocks around the `switch` reach at least as far.
-/

section

variable {chain : List OpenBlock} {block : OpenBlock} {first last : Nat}

/-- An arm writes its label, its lines and its `break`. -/
theorem arm {arm : Arm} {walk : Walk} {later ends : List Marker} {before : List Row} {tail : List Instruction}
    {index : Nat} (hfits : arm.Fits start block.stop) (hstart : arm.label.position = start)
    (body : Laid setting.words setting.scope options (some ⟨block.stop, none⟩) (chain.length + 2)
      arm.label.endPosition arm.body arm.leave.position arm.rows)
    (hbody : Recovered setting options number (some ⟨block.stop, none⟩) (chain.length + 2)
      arm.label.endPosition arm.body arm.leave.position arm.rows)
    (hkind : block.kind = .switch) (haround : Around chain loop first last) (hfirst : first ≤ start)
    (hlast : block.stop ≤ last)
    (hstage : Stage options walk (loopBegins number arm.body ++ later) ends (block :: chain) before)
    (hlabel : ∃ next kind id e, walk.step setting arm.label index = next.reconcile arm.label.endPosition ∧
      kind.isLabelLike = true ∧ Marker.Ends e ⟨kind, id, start, arm.label.endPosition, arm.leave.endPosition⟩ ∧
      (∀ m ∈ ends, m.id ≠ id) ∧
      Stage options next (loopBegins number arm.body ++ later) (ends ++ [e])
        (⟨kind, id, start, arm.label.endPosition, arm.leave.endPosition⟩ :: block :: chain)
        (before ++ rowsAt (chain.length + 1) [arm.line.written options]))
    (hlater : Ahead arm.leave.endPosition later) (hends : Ahead arm.leave.endPosition ends)
    (hcovers : setting.Covers index arm.code tail) :
    ∃ next, Walk.run setting index arm.code (walk.reconcile start) = next.reconcile arm.leave.endPosition ∧
      Stage options next later ends (block :: chain) (before ++ arm.lines options (chain.length + 1)) := by
  obtain ⟨opened, kind, id, e, hstep, harm, he, hapart, hopened⟩ := hlabel
  have hlt : start < arm.label.endPosition := hstart ▸ (hfits.consecutive.bounds (List.mem_cons_self ..)).2.1
  have hle := body.consecutive.le
  have hleave := hfits.leave.lt
  have hstop := hfits.stop_le
  have hnoBreak : kind.isBreakable = false := by
    cases kind <;> first | rfl | cases harm
  have hbreakable : block.kind.isBreakable = true := by simp [hkind, BlockKind.isBreakable]
  have hnoLoop : block.kind ≠ .loop := by simp [hkind]
  have hinside : Around (⟨kind, id, start, arm.label.endPosition, arm.leave.endPosition⟩ :: block :: chain)
      (some ⟨block.stop, none⟩) arm.label.endPosition arm.leave.position :=
    (haround.enter (by omega) (by omega) (by omega) hbreakable (fun h => absurd h hnoLoop)
      fun g hg => by cases hg).cons hnoBreak (Nat.le_of_lt hleave)
  have hendsArm : Ahead arm.leave.endPosition (ends ++ [e]) := hends.concat (Nat.le_of_eq he.position.symm)
  obtain ⟨inside, hrun, hinner⟩ := hbody _ opened _ _ _ _ _ hopened hinside rfl
    (hlater.mono (Nat.le_of_lt hleave)) (hendsArm.mono (Nat.le_of_lt hleave)) hcovers.tail.left
    hfits.leave.unlabelled
  -- No loop ends with the jump that leaves the arm: the loops around the `switch` reach further.
  have hloops : ∀ b ∈ ⟨kind, id, start, arm.label.endPosition, arm.leave.endPosition⟩ :: block :: chain,
      b.kind = .loop → arm.leave.endPosition < b.stop := by
    simp only [List.forall_mem_cons]
    refine ⟨fun h => ?_, fun h => absurd h hnoLoop, fun b hb h => ?_⟩
    · rw [h] at harm
      cases harm
    · exact Nat.lt_of_le_of_lt (Nat.le_trans hstop hlast) (haround.loops b hb h)
  obtain ⟨broken, hbreak, hbroken⟩ := hinner.step_break hfits.leave hcovers.tail.right.head hloops
    (by simp [hnoBreak, hbreakable]) rfl
  obtain ⟨closed, hclosed, houter⟩ :=
    hbroken.closesArm he.kind harm he.id (Nat.le_of_eq he.position) hapart
  refine ⟨closed, ?_, by simpa only [Arm.lines, armRows, List.append_assoc, List.length_cons] using houter⟩
  rw [Arm.code, run_cons hstage (body.ahead.append (hlater.mono (by omega))) (hends.mono (by omega)) hlt hstep,
    Walk.run_append, hrun, run_cons hinner hlater hendsArm hleave hbreak, Walk.run_nil, hclosed]

theorem loopBegins_code {arm : Arm} {start exit : Nat} (h : arm.Fits start exit) :
    loopBegins number arm.code = loopBegins number arm.body := by
  obtain ⟨t, v, htoken⟩ := h.token
  rw [Arm.code, loopBegins_cons_of_neg (Instruction.isDoUntil_of_condTarget? (by rw [htoken]; rfl)), loopBegins_append,
    loopBegins_cons_of_neg h.leave.isDoUntil, loopBegins_nil, List.append_nil]

/-- The arms of a `switch` write their lines. -/
theorem arms {arms : List Arm} (h : Chained setting.words setting.scope block.stop start arms)
    (bodies : ∀ arm ∈ arms, Laid setting.words setting.scope options (some ⟨block.stop, none⟩) (chain.length + 2)
      arm.label.endPosition arm.body arm.leave.position arm.rows)
    (hbodies : ∀ arm ∈ arms, Recovered setting options number (some ⟨block.stop, none⟩) (chain.length + 2)
      arm.label.endPosition arm.body arm.leave.position arm.rows)
    (hkind : block.kind = .switch) (haround : Around chain loop first last) (hfirst : first ≤ start)
    (hlast : block.stop ≤ last) {index : Nat} {walk : Walk} {later ends : List Marker} {before : List Row}
    {tail : List Instruction}
    (hstage : Stage options walk (loopBegins number (arms.flatMap Arm.code) ++ later) ends (block :: chain) before)
    (hlater : Ahead block.stop later) (hends : Ahead block.stop ends)
    (hcovers : setting.Covers index (arms.flatMap Arm.code) tail) :
    ∃ next, Walk.run setting index (arms.flatMap Arm.code) (walk.reconcile start) = next.reconcile block.stop ∧
      Stage options next later ends (block :: chain)
        (before ++ arms.flatMap (Arm.lines options (chain.length + 1))) := by
  have hinside : ∃ b ∈ block :: chain, b.kind = .switch := ⟨block, List.mem_cons_self .., hkind⟩
  induction h generalizing index walk before with
  | nil => exact ⟨walk, rfl, by simpa using hstage⟩
  | @fallback start arm label leave hexit =>
      simp only [List.flatMap_singleton, List.forall_mem_singleton] at hstage hcovers bodies hbodies ⊢
      have hfits := Arm.fits_of_default label leave (Nat.le_of_eq hexit) bodies.consecutive
      rw [loopBegins_code hfits] at hstage
      have hlabel := hstage.step_default label hcovers.head (List.find?_cons_of_pos (by simp [hkind]))
      rw [← hexit] at hlabel hlater hends ⊢
      exact Recovered.arm hfits label.position bodies hbodies hkind haround hfirst hlast hstage hlabel hlater hends
        hcovers
  | @cons start arm arms label leave rest ih =>
      obtain ⟨hbody, hmoreBodies⟩ := List.forall_mem_cons.1 hbodies
      obtain ⟨body, moreBodies⟩ := List.forall_mem_cons.1 bodies
      have hle := (rest.consecutive fun a ha => (moreBodies a ha).consecutive).le
      have hfit := Arm.fits_of_case label leave hle body.consecutive
      have hstart : start ≤ arm.leave.endPosition := label.position ▸ hfit.consecutive.le
      rw [List.flatMap_cons] at hcovers hstage
      rw [loopBegins_append, loopBegins_code hfit, List.append_assoc] at hstage
      obtain ⟨next, hrun, hnext⟩ := Recovered.arm hfit label.position body hbody hkind haround hfirst hlast hstage
        (hstage.step_case label hcovers.head hinside)
        ((rest.ahead moreBodies).append (hlater.mono hfit.stop_le)) (hends.mono hfit.stop_le) hcovers.left
      obtain ⟨final, hfinal, hend⟩ := ih moreBodies hmoreBodies (Nat.le_trans hfirst hstart) hnext hcovers.right
      exact ⟨final, by rw [List.flatMap_cons, Walk.run_append, hrun, hfinal],
        by simpa only [List.flatMap_cons, List.append_assoc] using hend⟩

end

theorem switch {head : Instruction} {value : String} {exit : Nat} {arms : List Arm}
    (header : IsSwitch setting.words setting.scope head start value) (cased : StartsWithCase arms)
    (chained : Chained setting.words setting.scope exit head.endPosition arms)
    (bodies : ∀ arm ∈ arms, Laid setting.words setting.scope options (some ⟨exit, none⟩) (depth + 2)
      arm.label.endPosition arm.body arm.leave.position arm.rows)
    (rest : Laid setting.words setting.scope options loop depth exit js stop rows)
    (hbodies : ∀ arm ∈ arms, Recovered setting options number (some ⟨exit, none⟩) (depth + 2)
      arm.label.endPosition arm.body arm.leave.position arm.rows)
    (hrest : Recovered setting options number loop depth exit js stop rows) :
    Recovered setting options number loop depth start (head :: (arms.flatMap Arm.code ++ js)) stop
      (blockRows options depth s!"switch({value})" (arms.flatMap (Arm.lines options (depth + 1))) none ++ rows) := by
  intro index walk later ends chain before tail hstage haround hdepth hlater hends hcovers htail
  subst hdepth
  have hlt := header.lt
  have harms := chained.consecutive fun arm harm => (bodies arm harm).consecutive
  have hle := harms.le
  have hstop := rest.consecutive.le
  have hbehind := rest.unlabelled htail
  have hswitch : setting.body.Holds index (head :: arms.flatMap Arm.code) (js ++ tail) := hcovers.toHolds.left
  -- The block around the `switch` reaches as far as what follows the `switch`.
  have hlimit : exit ≤ (chain.head?.map (·.stop)).getD setting.body.codeEnd := by
    cases hchain : chain.head? with
    | none => exact hswitch.le_codeEnd hbehind (hswitch.consecutive ⟨rfl, header.size, harms⟩)
    | some b => exact Nat.le_trans hstop (haround.reach b hchain)
  have hexit := Body.switchEnd_chained header cased chained bodies hcovers.toHolds hbehind hlimit
  rw [loopBegins_cons_of_neg (Instruction.isDoUntil_of_jumpTarget header.jumpTarget), loopBegins_append,
    List.append_assoc] at hstage
  have hafter : Ahead exit (loopBegins number js ++ later) := rest.ahead.append (hlater.mono hstop)
  have hends' : Ahead exit ends := hends.mono hstop
  obtain ⟨opened, id, e, hstep, he, hapart, hopened⟩ := hstage.step_switch header hexit hcovers.head
  obtain ⟨inside, hinside, hinner⟩ := Recovered.arms chained bodies hbodies rfl haround (Nat.le_of_lt hlt) hstop
    hopened hafter (hends'.concat (Nat.le_of_eq he.position.symm)) hcovers.tail.left
  obtain ⟨closed, hclosed, houter⟩ :=
    hinner.closesQueued he.kind rfl he.id (Nat.le_of_eq he.position) hapart
  rw [he.text] at houter
  obtain ⟨final, hfinal, hend⟩ := hrest _ closed later ends chain _ _ houter
    (haround.mono (by omega) (Nat.le_refl _)) rfl hlater hends hcovers.tail.right htail
  refine ⟨final, ?_, by simpa only [blockRows, List.append_assoc] using hend⟩
  rw [run_cons hstage ((chained.ahead bodies).append (hafter.mono hle)) (hends'.mono hle) hlt hstep,
    Walk.run_append, hinside, hclosed, hfinal]

end Recovered

/-- A walk over structured code writes the lines that the code stands for. -/
theorem Laid.recovered {setting : Setting} {options : Options} {number : Nat → Nat}
    {loop : Option Loop} {depth start stop : Nat} {is : List Instruction} {rows : List Row}
    (h : Laid setting.words setting.scope options loop depth start is stop rows) :
    Recovered setting options number loop depth start is stop rows := by
  induction h with
  | nil => exact .nil
  | plain statement rest ih =>
      exact .single statement.toStandsAt
        (Instruction.isDoUntil_of_jumpTarget statement.jumpTarget)
        (fun hstage _ hexplicit => hstage.step_statement statement hexplicit) rest ih
  | ifThen branch body rest ihbody ih => exact .ifThen branch body rest ihbody ih
  | ifElse branch yes yes_ne jump no no_ne rest ihyes ihno ih =>
      exact .ifElse branch yes yes_ne jump no no_ne rest ihyes ihno ih
  | whileLoop branch body jump rest ihbody ih => exact .whileLoop branch body jump rest ihbody ih
  | doUntil body branch rest ihbody ih => exact .doUntil body branch rest ihbody ih
  | forEach iterator body advance leave rest ihbody ih =>
      exact .forEach iterator body advance leave rest ihbody ih
  | switch header cased chained bodies rest ihbodies ih =>
      exact .switch header cased chained bodies rest ihbodies ih
  | breakLoop jump rest ih =>
      refine .single jump.toStandsAt jump.isDoUntil (fun hstage haround hexplicit => ?_) rest ih
      obtain ⟨b, hb, hexit, -⟩ := haround.exits _ rfl
      exact hstage.step_break jump hexplicit haround.loops hb hexit
  | continueLoop jump rest ih =>
      refine .single jump.toStandsAt jump.isDoUntil (fun hstage haround hexplicit => ?_) rest ih
      obtain ⟨b, hb, -, hguard⟩ := haround.exits _ rfl
      obtain ⟨hkind, hcreator, hback⟩ := hguard _ rfl
      exact hstage.step_continue jump hexplicit haround.stops hb hkind hcreator hback

end ScriptBytecode
