/-
Module: ScriptBytecode.Proofs.Structured.Decompile
Purpose: Structured programs come back from their bytecode. A walk over an assembled body starts with the `do` loops of
  the program queued, passes over the program, and finds nothing left to do at the end. Main statement: decompiling an
  assembled program gives the text of the program.
Main exports: loopNumber, stage_start, Stage.finish, Stage.epilogue, Laid.walk, Laid.decompile, decompile_assembleBody
-/
import ScriptBytecode.Proofs.Structured.Assembly
import ScriptBytecode.Proofs.Structured.Program
import ScriptBytecode.Proofs.Structured.Recovery

namespace ScriptBytecode

/-- What `do` loops a walk queues before the first instruction. -/
theorem foldl_queueBegin {untils : List Instruction} (h : ∀ i ∈ untils, i.isDoUntil = true)
    (blocks : Blocks) :
    untils.foldl (fun blocks i =>
      match i.jumpTarget? with
      | some target => (blocks.queueBegin .loop target i.position i.endPosition (some "do") true).2
      | none => blocks) blocks =
      { blocks with
        pending := blocks.pending ++
          (untils.zipIdx blocks.nextId).map fun (i, id) => i.loopBegin id
        nextId := blocks.nextId + untils.length } := by
  induction untils generalizing blocks with
  | nil => simp
  | cons i rest ih =>
      obtain ⟨huntil, hrest⟩ := List.forall_mem_cons.1 h
      cases htarget : i.jumpTarget? with
      | none =>
          rw [Instruction.isDoUntil_of_jumpTarget htarget] at huntil
          cases huntil
      | some target =>
          rw [List.foldl_cons, htarget]
          dsimp only
          rw [ih hrest]
          simp only [Blocks.queueBegin, Instruction.loopBegin, htarget, List.append_assoc,
            List.singleton_append, List.zipIdx_cons, List.map_cons, List.length_cons, Option.getD_some,
            Nat.add_assoc, Nat.add_comm 1]

/-- Numbers of the `do` loops of a body, by where they end. -/
def loopNumber (instructions : List Instruction) (stop : Nat) : Nat :=
  ((instructions.filter (·.isDoUntil)).map (·.endPosition)).idxOf stop

/-- The loops are numbered in the order in which they are queued. -/
theorem loopBegins_loopNumber {is : List Instruction} {start stop : Nat}
    (h : Consecutive start is stop) :
    loopBegins (loopNumber is) is =
      ((is.filter (·.isDoUntil)).zipIdx).map fun (i, id) => i.loopBegin id := by
  have hnodup : ((is.filter (·.isDoUntil)).map (·.endPosition)).Nodup :=
    (List.pairwise_map.2 (h.pairwise_endPosition.filter _)).imp Nat.ne_of_lt
  refine List.ext_getElem (by simp [loopBegins]) fun k hk _ => ?_
  have hk' : k < ((is.filter (·.isDoUntil)).map (·.endPosition)).length := by
    simpa [loopBegins] using hk
  have hnumber := hnodup.idxOf_getElem k hk'
  rw [List.getElem_map] at hnumber
  simp [loopBegins, loopNumber, hnumber]

/-- Before the first instruction the `do` loops of a body are queued and nothing else has happened. -/
theorem stage_start {setting : Setting} {options : Options} {start stop : Nat}
    (hconsecutive : Consecutive start setting.body.instructions.toList stop)
    (hlabels : ∀ i ∈ setting.body.instructions.toList, ∀ entries, i.token ≠ .labelTable entries) :
    ∃ walk, Walk.prepare setting [] = walk.reconcile 0 ∧
      Stage options walk
        (loopBegins (loopNumber setting.body.instructions.toList) setting.body.instructions.toList) [] []
        [] := by
  refine ⟨_, rfl, ?_⟩
  set is := setting.body.instructions.toList with his
  have hstates : Walk.registerStates setting {} = {} := by
    unfold Walk.registerStates
    dsimp only
    rw [← his, List.flatMap_eq_nil_iff.2]
    · rfl
    · intro i hi
      have hi := hlabels i hi
      split
      · exact absurd ‹_› (hi _)
      · rfl
  have huntils : ∀ i ∈ is.filter (·.isDoUntil), i.isDoUntil = true := fun i hi =>
    (List.mem_filter.1 hi).2
  have hblocks : ((Walk.registerSeeds [] (Walk.registerStates setting {})).queueDoLoops setting).blocks =
      { pending := loopBegins (loopNumber is) is, nextId := (is.filter (·.isDoUntil)).length } := by
    rw [hstates, loopBegins_loopNumber hconsecutive]
    refine (foldl_queueBegin huntils {}).trans ?_
    simp
  have hpending : ∀ m ∈ loopBegins (loopNumber is) is, m.side = .opening ∧ m.deferred = true ∧
      m.id < (is.filter (·.isDoUntil)).length := by
    intro m hm
    obtain ⟨i, hi, rfl⟩ := List.mem_map.1 hm
    refine ⟨rfl, rfl, ?_⟩
    have hlt := List.idxOf_lt_length_iff.2 (List.mem_map_of_mem (f := (·.endPosition)) hi)
    simpa [Instruction.loopBegin, loopNumber] using hlt
  refine ⟨?_, ?_, ?_, rfl, rfl, fun m hm => ⟨(hpending m hm).1, (hpending m hm).2.1⟩, by simp, ?_, by simp⟩
  · show (Walk.registerSeeds [] (Walk.registerStates setting {})).labels = {}
    rw [hstates]
    rfl
  · rw [hblocks, List.append_nil]
  · rw [hblocks]
  · rw [hblocks, List.append_nil]
    exact fun m hm => (hpending m hm).2.2

namespace Stage

variable {options : Options} {walk : Walk} {rows : List Row}

/-- At the end of a body nothing is left to do. -/
theorem finish (h : Stage options walk [] [] [] rows) (setting : Setting) :
    (walk.finish setting).events = walk.events ∧
      (walk.finish setting).labels.missed.isEmpty = true := by
  have hlast : walk.writeLastLabels setting = { walk with labels := {} } := by
    unfold Walk.writeLastLabels
    rw [h.labels]
    rfl
  have hsame : { walk with labels := {} } = walk := by rw [← h.labels]
  have hopen : ∀ deferred, walk.openDue .unbounded deferred = walk := fun deferred =>
    Walk.openDue_of_none (by simp [h.pending])
  unfold Walk.finish
  dsimp only
  rw [hlast, hsame, hopen, hopen, h.chain_eq]
  refine ⟨rfl, ?_⟩
  show walk.labels.missed.isEmpty = true
  rw [h.labels]
  rfl

/-- The `return` that compilers add is passed over. -/
theorem step_implicitReturn {loops ends : List Marker} {chain : List OpenBlock}
    (h : Stage options walk loops ends chain rows) {setting : Setting} {i : Instruction} {index : Nat}
    (hsuppress : setting.suppressImplicitReturn = true) (hshown : i.opcode.isHidden = false)
    (himplicit : setting.body.isImplicitReturn index = true) :
    walk.step setting i index =
      Walk.reconcile { walk with previous := some i.opcode } i.endPosition := by
  unfold Walk.step
  rw [h.writeLabel_eq]
  simp [hshown, hsuppress, himplicit]

end Stage

section

variable {body : Body} {is : List Instruction} {storage : Storage} {position : Nat}

/-- Of the instructions of a program none is the `return` that compilers add: that one comes after them. -/
theorem isImplicitReturn_of_lt (h : body.instructions.toList = is ++ storage.epilogue position) {k : Nat}
    (hk : k < is.length) : body.isImplicitReturn k = false := by
  have hrest : (body.instructions.toList.drop (k + 1)).all Body.isTail = false := by
    rw [h, List.drop_append_of_le_length hk, List.all_append]
    simp [Storage.epilogue, Storage.returnNothing, Storage.instruction, Body.isTail, Opcode.isHidden]
  unfold Body.isImplicitReturn
  rw [hrest, Option.any_eq_false]
  simp

theorem isImplicitReturn_epilogue (h : body.instructions.toList = is ++ storage.epilogue position) :
    body.isImplicitReturn is.length = true ∧ body.isImplicitReturn (is.length + 1) = false := by
  unfold Body.isImplicitReturn
  rw [← Array.getElem?_toList, ← Array.getElem?_toList, h, List.getElem?_append_right (Nat.le_refl _),
    List.getElem?_append_right (Nat.le_succ _)]
  simp [Storage.epilogue, Storage.returnNothing, Storage.endOfScript, Storage.instruction, Body.isTail]

end

/-- Nothing is written for what compilers add at the end of a body. -/
theorem Stage.epilogue {options : Options} {walk : Walk} {rows : List Row}
    (h : Stage options walk [] [] [] rows) {setting : Setting} {storage : Storage} {stop : Nat}
    {is : List Instruction}
    (hbody : setting.body.instructions.toList = is ++ storage.epilogue stop)
    (hsuppress : setting.suppressImplicitReturn = true) :
    ∃ next, Walk.run setting is.length (storage.epilogue stop) (walk.reconcile stop) = next ∧
      Stage options next [] [] [] rows := by
  obtain ⟨himplicit, hexplicit⟩ := isImplicitReturn_epilogue hbody
  have hreturned : Stage options { walk with previous := some .returnValue } [] [] [] rows := { h with }
  have hreturn : walk.step setting (storage.returnNothing stop) is.length =
      { walk with previous := some .returnValue } :=
    (h.step_implicitReturn hsuppress rfl himplicit).trans (hreturned.reconcile_of_quiet (by simp))
  have hscript : IsBare (storage.endOfScript (stop + 2)) (stop + 2) .endOfScript :=
    ⟨⟨rfl, Nat.succ_pos _⟩, rfl, rfl⟩
  have hpassed := hreturned.pass (storage.endOfScript (stop + 2)) none
  refine ⟨_, ?_, hpassed⟩
  rw [h.reconcile_of_quiet (by simp), Storage.epilogue, Walk.run_cons, hreturn, Walk.run_cons,
    hreturned.step_bare hscript (by decide) rfl rfl hexplicit, hpassed.reconcile_of_quiet (by simp),
    Walk.run_nil]

/-- A walk over a body of structured code writes the lines that the code stands for, and misses no label. -/
theorem Laid.walk (setting : Setting) {options : Options} {storage : Storage} {stop : Nat}
    {is : List Instruction} {rows : List Row}
    (h : Laid setting.words setting.scope options none 0 0 is stop rows)
    (hbody : setting.body.instructions.toList = is ++ storage.epilogue stop)
    (hsuppress : setting.suppressImplicitReturn = true) :
    rowsAfter options [] (setting.walk []).events.toList = rows ∧
      (setting.walk []).labels.missed.isEmpty = true := by
  have hconsecutive : Consecutive 0 setting.body.instructions.toList (stop + 3) := by
    rw [hbody]
    exact h.consecutive.append ⟨rfl, Nat.succ_pos _, rfl, Nat.succ_pos _, rfl⟩
  have hlabels : ∀ i ∈ setting.body.instructions.toList, ∀ entries, i.token ≠ .labelTable entries := by
    rw [hbody]
    refine List.forall_mem_append.2 ⟨h.no_labelTable, ?_⟩
    simp [Storage.epilogue, Storage.returnNothing, Storage.endOfScript, Storage.instruction]
  have hcovers : setting.Covers 0 is (storage.epilogue stop) :=
    ⟨⟨⟨_, _, hconsecutive⟩, hbody⟩, fun k hk => isImplicitReturn_of_lt hbody (by simpa using hk)⟩
  have hbehind : Unlabelled (storage.epilogue stop) := ⟨_, _, rfl, rfl, nofun⟩
  have hloops : ∀ number, loopBegins number setting.body.instructions.toList =
      loopBegins number is ++ [] := fun number => by
    rw [hbody, loopBegins_append]
    rfl
  obtain ⟨first, hfirst, hstart⟩ := stage_start hconsecutive hlabels
  rw [hloops] at hstart
  obtain ⟨last, hlast, hend⟩ := h.recovered 0 first [] [] [] [] _ hstart ⟨by simp, by simp, by simp, by simp⟩ rfl
    (by simp [Ahead]) (by simp [Ahead]) hcovers hbehind
  obtain ⟨final, hfinal, hdone⟩ := hend.epilogue hbody hsuppress
  have hwalk : setting.walk [] = final.finish setting := by
    unfold Setting.walk
    rw [hfirst, hbody]
    show (Walk.run setting 0 (is ++ storage.epilogue stop) _).finish setting = _
    rw [Walk.run_append, hlast, Nat.zero_add, hfinal]
  obtain ⟨hevents, hmissed⟩ := hdone.finish setting
  rw [hwalk, hevents]
  exact ⟨by simpa using hdone.rows_eq, hmissed⟩

/-- Decompiling a body of structured code gives the lines that the code stands for. -/
theorem Laid.decompile {words : Vocabulary} {options : Options} {storage : Storage} {body : Body} {stop : Nat}
    {is : List Instruction} {rows : List Row} (h : Laid words {} options none 0 0 is stop rows)
    (hsuppress : options.suppressImplicitReturn = true)
    (hbody : body.instructions.toList = is ++ storage.epilogue stop) :
    (body.decompile words (Context.new options)).1 =
      String.join (rows.map (Row.render options options.initialIndent)) := by
  obtain ⟨hrows, hmissed⟩ := Laid.walk (body.setting words (Context.new options)) h hbody hsuppress
  have htext := ((body.setting words (Context.new options)).wellBracketed []
    (rfl : (Context.new options).pendingIndent = 0)).text
  unfold Body.decompile Setting.events
  dsimp only
  rw [if_pos hmissed, htext]
  show String.join ((rowsAfter options [] _).map _) = _
  rw [hrows]
  rfl

/-- The instructions of a program stand for its lines. -/
theorem Flow.laid_program {words : Vocabulary} {options : Options} {storage : Storage} {program : List Flow}
    (hwf : WellFormedAll words {} .noLoop program) (hfits : sizeAll program < 0xFFFF) :
    Laid words {} options none 0 0 (assembleAll storage {} 0 program) (sizeAll program)
      (rowsAll words {} options 0 program) := by
  rw [← Nat.zero_add (sizeAll program)] at hfits ⊢
  exact laidAll program hwf ⟨by decide, by decide⟩ hfits

/-- Decompiling an assembled program gives the text of the program, whatever its statements are nested in. -/
theorem decompile_assembleBody (words : Vocabulary) (options : Options) (storage : Storage)
    (program : List Stmt) (body : Body) (hsuppress : options.suppressImplicitReturn = true)
    (hwf : Stmt.WellFormedAll words {} .noLoop program) (hfits : Stmt.sizeAll program < 0xFFFF)
    (hbody : body.instructions.toList = assembleBody storage program) :
    (body.decompile words (Context.new options)).1 = programText words options program :=
  (Flow.laid_program hwf hfits).decompile hsuppress hbody

/-- One byte for each instruction. -/
def bytewise : Storage := ⟨fun _ => ⟨0x00, none⟩, id, fun _ => 1⟩

/-- An instruction that is a word of its own. -/
def keyword (opcode : Opcode) : Instruction := bytewise.instruction opcode 0 1 .noOperands

/-- Blocks that meet: the `do` loop begins where the first block of the `if` does, `continue` stands in front of the
    jump over the `else`, and `foreach` and `else` end together, at the jump back to the guard. -/
def nested : List Stmt :=
  [.whileLoop (keyword .boolTrue)
    [.ifElse (keyword .boolFalse)
      [.doUntil [.ifThen (keyword .boolTrue) [.breakLoop]] (keyword .boolFalse), .continueLoop]
      [.forEach (keyword .selfObject) [.plain (keyword .stop), .breakLoop]]]]

def nestedBody : Body where
  declaration := "nested"
  declaredSize := 40
  format := ⟨0, 0⟩
  instructions := (assembleBody bytewise nested).toArray
  failure := none

theorem decompile_assembleBody_nested :
    ({} : Options).suppressImplicitReturn = true ∧ Stmt.WellFormedAll noWords {} .noLoop nested ∧
      Stmt.sizeAll nested < 0xFFFF ∧
      nestedBody.instructions.toList = assembleBody bytewise nested ∧
      (nestedBody.decompile noWords (Context.new {})).1 = programText noWords {} nested := by
  have htrue : (keyword .boolTrue).Renders noWords {} := ⟨"true", none, by rfl⟩
  have hfalse : (keyword .boolFalse).Renders noWords {} := ⟨"false", none, by rfl⟩
  have hself : (keyword .selfObject).Renders noWords {} := ⟨"self", none, by rfl⟩
  have hstop : (keyword .stop).IsPlain noWords {} :=
    ⟨by decide, rfl, "stop", true, none, by decide, by rfl⟩
  have hwf : Stmt.WellFormedAll noWords {} .noLoop nested := by
    simp [nested, Stmt.WellFormedAll, Stmt.toFlowAll, Stmt.toFlow, Flow.WellFormedAll, Flow.WellFormed, htrue, hfalse,
      hself, hstop]
  have hfits : Stmt.sizeAll nested < 0xFFFF := by decide
  exact ⟨rfl, hwf, hfits, rfl,
    decompile_assembleBody noWords {} bytewise nested nestedBody rfl hwf hfits rfl⟩

example : (Flow.rowsAll noWords {} { braceStyle := .sameLine } 0 (Stmt.toFlowAll nested)).map
      (fun row => (row.depth, row.text)) =
    [(0, "while(true) \x7b"),
      (1, "if(false) \x7b"),
      (2, "do \x7b"),
      (3, "if(true) \x7b"),
      (4, "break;"),
      (3, "\x7d"),
      (2, "\x7d until(false);"),
      (2, "continue;"),
      (1, "\x7d else \x7b"),
      (2, "foreach self \x7b"),
      (3, "stop;"),
      (3, "break;"),
      (2, "\x7d"),
      (1, "\x7d"),
      (0, "\x7d")] := by
  cbv

end ScriptBytecode
