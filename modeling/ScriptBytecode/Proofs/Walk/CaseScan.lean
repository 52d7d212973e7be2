/-
Module: ScriptBytecode.Proofs.Walk.CaseScan
Purpose: The search for the end of a `switch` as a loop without a bound, in which every access to the code is checked.
  It follows whatever targets the cases have: back, to the case itself, into another instruction or past the code.
  Main statement: on a decoded body no access fails, each round of the loop moves on, and the loop ends with the
  answer of the bounded search.
Main exports: slice?, Body.stepOver, Body.caseRound, Body.ScansTo, Body.checkedEnd, Body.caseRound_spec,
  Body.scansTo_followCases, Body.checkedEnd_eq, switchEnd_checked
-/
import ScriptBytecode.Proofs.Body.Shapes
import ScriptBytecode.Proofs.Decoding.Locality
import ScriptBytecode.Proofs.Decoding.Partition

namespace ScriptBytecode

/-!
### The search, checked

An answer `none` stands for an access out of range.
-/

/-- The elements from `first` to before `last`, if that is a range of the array. -/
def slice? {α : Type} (xs : Array α) (first last : Nat) : Option (List α) :=
  if first ≤ last ∧ last ≤ xs.size then some (xs.extract first last).toList else none

theorem slice?_eq_some {α : Type} {xs : Array α} {first last : Nat} (hfirst : first ≤ last) (hlast : last ≤ xs.size) :
    slice? xs first last = some (xs.extract first last).toList :=
  if_pos ⟨hfirst, hlast⟩

/-- What one round over the cases comes to. -/
inductive CaseRound where
  /-- A case leads on to a position. -/
  | goesOn (position : Nat)
  | ends (chain : CaseChain)
deriving Repr, DecidableEq

namespace Body

/-- Steps over hidden instructions from an index on; the instruction there starts at `position`. Finds the index and the
    position of the first that is not hidden, or that none is left. -/
def stepOver (body : Body) (index position : Nat) : Option (Option (Nat × Nat)) :=
  if h : index < body.instructions.size then
    if body.instructions[index].opcode.isHidden then
      match body.instructions[index + 1]? with
      | none => some none
      | some next => body.stepOver (index + 1) next.position
    else
      some (some (index, position))
  else
    none
termination_by body.instructions.size - index

/-- One round: what stands at a position, past the hidden instructions there. -/
def caseRound (body : Body) (limit position : Nat) : Option CaseRound :=
  match body.indexOf? position with
  | none => some (.ends (.leavesAt position))
  | some start => do
    match ← body.stepOver start position with
    | none => some (.ends (.leavesAt limit))
    | some (index, reached) =>
      let i ← body.instructions[index]?
      match i.token with
      | .caseLabel target _ =>
        if target = defaultCaseTarget then some (.ends (.reachesDefault index))
        else if reached < target.toNat then some (.goesOn target.toNat)
        else some (.ends (.leavesAt limit))
      | _ => some (.ends (.leavesAt reached))

/-- Rounds from a position on lead to the end of a chain of cases. A loop that fails in a round, or that does not end,
    leads nowhere. -/
inductive ScansTo (body : Body) (limit : Nat) : Nat → CaseChain → Prop where
  | ends {position : Nat} {chain : CaseChain} (h : body.caseRound limit position = some (.ends chain)) :
      ScansTo body limit position chain
  | goesOn {position next : Nat} {chain : CaseChain} (h : body.caseRound limit position = some (.goesOn next))
      (rest : ScansTo body limit next chain) : ScansTo body limit position chain

/-- Logical end of the `switch` at an index whose chain of cases is known, with every access checked. -/
def checkedEnd (body : Body) (switchIndex limit : Nat) : CaseChain → Option Nat
  | .leavesAt position => some (min position limit)
  | .reachesDefault index => do
    let label ← body.instructions[index]?
    let arms ← slice? body.instructions (switchIndex + 1) index
    let rest ← slice? body.instructions (index + 1) body.instructions.size
    let breaks := (arms.filter (·.opcode == .jump)).filterMap (·.jumpTarget?)
    let found := (breaks.filter (label.position < ·)).min?.or (firstPlainReturn limit 0 rest)
    some (min (found.getD limit) limit)

variable {body : Body} {limit : Nat}

/-!
### One round
-/

/-- Stepping over hidden instructions stays inside the code. -/
theorem stepOver_eq {index : Nat} {i : Instruction} (hi : body.instructions[index]? = some i) :
    body.stepOver index i.position =
      some (body.instructions[body.skipHidden index]?.map fun j => (body.skipHidden index, j.position)) := by
  fun_induction skipHidden body index generalizing i with
  | case1 index hlt hhidden ih =>
      obtain rfl : body.instructions[index] = i := Option.some.inj ((Array.getElem?_eq_getElem hlt).symm.trans hi)
      rw [stepOver, dif_pos hlt, if_pos hhidden]
      cases hnext : body.instructions[index + 1]? with
      | none =>
          have hend : body.skipHidden (index + 1) = index + 1 := by
            rw [skipHidden, dif_neg (Nat.not_lt.2 (Array.getElem?_eq_none_iff.1 hnext))]
          rw [hend, hnext]
          rfl
      | some next => exact ih hnext
  | case2 index hlt hshown =>
      obtain rfl : body.instructions[index] = i := Option.some.inj ((Array.getElem?_eq_getElem hlt).symm.trans hi)
      rw [stepOver, dif_pos hlt, if_neg hshown, hi]
      rfl
  | case3 index hge =>
      rw [Array.getElem?_eq_none (Nat.not_lt.1 hge)] at hi
      cases hi

/-- A round that comes to a shown instruction. -/
theorem caseRound_of_getElem? {position start : Nat} {i : Instruction} (hstart : body.indexOf? position = some start)
    (hi : body.instructions[body.skipHidden start]? = some i) :
    body.caseRound limit position = some (match i.token.caseExit? with
      | some none => .ends (.reachesDefault (body.skipHidden start))
      | some (some target) => if i.position < target then .goesOn target else .ends (.leavesAt limit)
      | none => .ends (.leavesAt i.position)) := by
  obtain ⟨first, hfirst, rfl⟩ := position_of_indexOf? hstart
  rw [Array.getElem?_toList] at hfirst
  simp only [caseRound, hstart, stepOver_eq hfirst, hi, Option.map_some, Option.bind_eq_bind, Option.bind_some]
  cases i.token with
  | caseLabel target value =>
      by_cases hdefault : target = defaultCaseTarget
      · simp [Token.caseExit?, hdefault]
      · simp only [Token.caseExit?, hdefault, if_false]
        split <;> rfl
  | _ => rfl

/-- A `default` that a chain of cases reaches stands in the code, at a position or past it. -/
def StandsPast (body : Body) (position : Nat) : CaseChain → Prop
  | .leavesAt _ => True
  | .reachesDefault index => ∃ i, body.instructions[index]? = some i ∧ position ≤ i.position

theorem StandsPast.mono {first second : Nat} {chain : CaseChain} (h : body.StandsPast second chain)
    (hle : first ≤ second) : body.StandsPast first chain := by
  cases chain with
  | leavesAt position => exact trivial
  | reachesDefault index =>
      obtain ⟨i, hi, hposition⟩ := h
      exact ⟨i, hi, Nat.le_trans hle hposition⟩

/-- What a round finds agrees with the bounded search. A round that goes on leads to a later position. -/
structure Rounds (body : Body) (limit position : Nat) (round : CaseRound) : Prop where
  goesOn : ∀ next, round = .goesOn next → position < next ∧ ∀ bound, body.Suffices (bound + 1) position →
    body.Suffices bound next ∧ body.followCases limit (bound + 1) position = body.followCases limit bound next
  ends : ∀ chain, round = .ends chain → body.StandsPast position chain ∧
    ∀ bound, body.followCases limit (bound + 1) position = chain

theorem Rounds.of_ends {position : Nat} {chain : CaseChain} (hpast : body.StandsPast position chain)
    (h : ∀ bound, body.followCases limit (bound + 1) position = chain) : body.Rounds limit position (.ends chain) where
  goesOn next hround := by cases hround
  ends other hround := by
    cases hround
    exact ⟨hpast, h⟩

theorem IsTiled.position_le {first last : Nat} {i j : Instruction} (h : body.IsTiled) (hle : first ≤ last)
    (hi : body.instructions[first]? = some i) (hj : body.instructions[last]? = some j) : i.position ≤ j.position := by
  obtain ⟨hfirst, rfl⟩ := Array.getElem?_eq_some_iff.1 hi
  obtain ⟨hlast, rfl⟩ := Array.getElem?_eq_some_iff.1 hj
  rcases Nat.eq_or_lt_of_le hle with rfl | hlt
  · exact Nat.le_refl _
  · have hincreasing := List.pairwise_iff_getElem.1 (Consecutive.pairwise_position h)
    exact Nat.le_of_lt (hincreasing first last hfirst hlast hlt)

/-- No access of a round is out of range, whatever stands at the position. -/
theorem caseRound_spec (hcode : body.IsTiled) (limit position : Nat) :
    ∃ round, body.caseRound limit position = some round ∧ body.Rounds limit position round := by
  cases hindex : body.indexOf? position with
  | none =>
      refine ⟨.ends (.leavesAt position), by simp only [caseRound, hindex], Rounds.of_ends trivial fun bound => ?_⟩
      simp only [followCases, hindex]
  | some first =>
      obtain ⟨j, hj, rfl⟩ := position_of_indexOf? hindex
      rw [Array.getElem?_toList] at hj
      cases hi : body.instructions[body.skipHidden first]? with
      | none =>
          refine ⟨.ends (.leavesAt limit), ?_, Rounds.of_ends trivial fun bound => ?_⟩
          · simp only [caseRound, hindex, stepOver_eq hj, hi, Option.map_none, Option.bind_eq_bind, Option.bind_some]
          · simp only [followCases, hindex, hi]
      | some i =>
          have hskip := (body.skipHidden_spec first).1
          have hle : j.position ≤ i.position := hcode.position_le hskip hj hi
          have hfollow : ∀ bound, body.followCases limit (bound + 1) j.position = _ := fun bound =>
            followCases_of_getElem? hindex (Array.getElem?_toList.trans hi)
          refine ⟨_, caseRound_of_getElem? hindex hi, ?_⟩
          rcases hexit : i.token.caseExit? with _ | _ | target
          · exact Rounds.of_ends trivial fun bound => by simp only [hfollow, hexit]
          · exact Rounds.of_ends ⟨i, hi, hle⟩ fun bound => by simp only [hfollow, hexit]
          · by_cases hlt : i.position < target
            · simp only [hlt, if_true]
              refine ⟨?_, fun chain hround => by cases hround⟩
              rintro next ⟨⟩
              refine ⟨Nat.lt_of_le_of_lt hle hlt, fun bound hbound => ⟨?_, ?_⟩⟩
              · exact hbound.next hcode hindex hskip (Array.getElem?_toList.trans hi) hlt
              · simp only [hfollow, hexit, hlt, if_true]
            · simp only [hlt, if_false]
              exact Rounds.of_ends trivial fun bound => by simp only [hfollow, hexit, hlt, if_false]

/-!
### The loop
-/

/-- The loop ends, with the answer of the search whose bound suffices. -/
theorem scansTo_followCases (hcode : body.IsTiled) (limit : Nat) {bound position : Nat}
    (h : body.Suffices bound position) :
    body.ScansTo limit position (body.followCases limit bound position) ∧
      body.StandsPast position (body.followCases limit bound position) := by
  induction bound generalizing position with
  | zero => exact absurd h.1 (Nat.lt_irrefl 0)
  | succ bound ih =>
      obtain ⟨round, hround, hspec⟩ := caseRound_spec hcode limit position
      cases round with
      | goesOn next =>
          obtain ⟨hlt, hnext⟩ := hspec.goesOn next rfl
          obtain ⟨hsuffices, hfollow⟩ := hnext bound h
          obtain ⟨hscan, hpast⟩ := ih hsuffices
          rw [hfollow]
          exact ⟨.goesOn hround hscan, hpast.mono (Nat.le_of_lt hlt)⟩
      | ends chain =>
          obtain ⟨hpast, hfollow⟩ := hspec.ends chain rfl
          rw [hfollow]
          exact ⟨.ends hround, hpast⟩

/-- The loop has one answer. -/
theorem ScansTo.unique {position : Nat} {chain other : CaseChain} (h : body.ScansTo limit position chain)
    (h' : body.ScansTo limit position other) : other = chain := by
  induction h with
  | ends hround =>
      cases h' with
      | ends hround' =>
          rw [hround] at hround'
          cases hround'
          rfl
      | goesOn hround' rest =>
          rw [hround] at hround'
          cases hround'
  | goesOn hround rest ih =>
      cases h' with
      | ends hround' =>
          rw [hround] at hround'
          cases hround'
      | goesOn hround' rest' =>
          rw [hround] at hround'
          cases hround'
          exact ih rest'

/-- A `default` that is found for the instruction at an index stands behind it. -/
theorem lt_of_reachesDefault (hcode : body.IsTiled) {index found : Nat} {i : Instruction}
    (hi : body.instructions[index]? = some i) (h : body.StandsPast i.endPosition (.reachesDefault found)) :
    index < found ∧ found < body.instructions.size := by
  obtain ⟨label, hlabel, hle⟩ := h
  have hsize := (Array.getElem?_eq_some_iff.1 hlabel).1
  refine ⟨Nat.lt_of_not_le fun hbefore => ?_, hsize⟩
  have hposition := hcode.position_le hbefore hlabel hi
  have hmem : i ∈ body.instructions.toList := List.mem_of_getElem? (Array.getElem?_toList.trans hi)
  have hnonempty := (Consecutive.bounds hcode hmem).2.1
  omega

/-- No access after the loop is out of range. -/
theorem checkedEnd_eq (hcode : body.IsTiled) {index : Nat} {switch : Instruction}
    (hswitch : body.instructions[index]? = some switch) (limit : Nat) :
    body.checkedEnd index limit (body.followCases limit (body.instructions.size + 1) switch.endPosition) =
      some (body.switchEnd index limit) := by
  obtain ⟨-, hpast⟩ := scansTo_followCases hcode limit (body.suffices_size switch.endPosition)
  unfold switchEnd
  simp only [hswitch]
  generalize body.followCases limit (body.instructions.size + 1) switch.endPosition = chain at hpast
  cases chain with
  | leavesAt position => rfl
  | reachesDefault found =>
      obtain ⟨hlt, hsize⟩ := lt_of_reachesDefault hcode hswitch hpast
      obtain ⟨label, hlabel, -⟩ := hpast
      have hrest : (body.instructions.extract (found + 1) body.instructions.size).toList =
        body.instructions.toList.drop (found + 1) := by simp
      simp only [checkedEnd, hlabel, slice?_eq_some hlt (Nat.le_of_lt hsize), slice?_eq_some hsize (Nat.le_refl _),
        hrest, Option.bind_eq_bind, Option.bind_some, Option.map_some, Option.getD_some]
      rfl

end Body

/-- The search for the end of a `switch` is safe on every decoded body, at every index and for every limit, wherever
    the cases lead. A round of the loop from any position on has an outcome, and one that goes on leads to a later
    position. Stepping over hidden instructions stops in the code or at its end. Without a bound the loop ends from
    any position on, with one answer. From the end of a `switch` on, with every access checked, this answer gives the
    end that the bounded search finds; a `default` that is reached stands behind the `switch`, so what is between the
    two is a range of the code. -/
theorem switchEnd_checked (source : Source) (dialect : Dialect) (index limit : Nat) :
    let body := source.decode dialect
    (∀ position, ∃ round, body.caseRound limit position = some round ∧
        ∀ next, round = .goesOn next → position < next) ∧
      (∀ start i, body.instructions[start]? = some i → ∃ found, body.stepOver start i.position = some found ∧
        ∀ reached position, found = some (reached, position) →
          start ≤ reached ∧ reached < body.instructions.size ∧ i.position ≤ position) ∧
      (∀ position, ∃ chain, body.ScansTo limit position chain ∧
        ∀ other, body.ScansTo limit position other → other = chain) ∧
      ∀ switch, body.instructions[index]? = some switch → ∃ chain, body.ScansTo limit switch.endPosition chain ∧
        body.checkedEnd index limit chain = some (body.switchEnd index limit) ∧
        ∀ found, chain = .reachesDefault found → index < found ∧ found < body.instructions.size := by
  intro body
  have hcode : body.IsTiled := Body.isTiled_decode source dialect
  refine ⟨?_, ?_, ?_, ?_⟩
  · intro position
    obtain ⟨round, hround, hspec⟩ := Body.caseRound_spec hcode limit position
    exact ⟨round, hround, fun next hnext => (hspec.goesOn next hnext).1⟩
  · intro start i hi
    refine ⟨_, Body.stepOver_eq hi, fun reached position hfound => ?_⟩
    obtain ⟨j, hj, hpair⟩ := Option.map_eq_some_iff.1 hfound
    cases hpair
    have hskip := (body.skipHidden_spec start).1
    exact ⟨hskip, (Array.getElem?_eq_some_iff.1 hj).1, hcode.position_le hskip hi hj⟩
  · intro position
    have hscan := (Body.scansTo_followCases hcode limit (body.suffices_size position)).1
    exact ⟨_, hscan, fun other hother => hscan.unique hother⟩
  · intro switch hswitch
    obtain ⟨hscan, hpast⟩ := Body.scansTo_followCases hcode limit (body.suffices_size switch.endPosition)
    refine ⟨_, hscan, Body.checkedEnd_eq hcode hswitch limit, fun found hfound => ?_⟩
    rw [hfound] at hpast
    exact Body.lt_of_reachesDefault hcode hswitch hpast

/-- A `switch` with one case, which leads to `target`, and a `default` behind a hidden instruction. -/
def hiddenDefault (target : UInt8) : Source where
  declaration := "hiddenDefault"
  bytes := [0x05, 0x01, 0x00, 0x00, 0x00, 0x04, 0x25, 0x0A, target, 0x00, 0x26] ++
    [0x41, 0x64, 0x00, 0x00, 0x00, 0x01, 0x00, 0x00, 0x00, 0x02, 0x00, 0x00, 0x00, 0x00] ++
    [0x0A, 0xFF, 0xFF, 0x04, 0x0B, 0x53]
  declaredSize := 35

-- The case leads to the hidden instruction, to itself, into another instruction, and past the code.
theorem switchEnd_checked_hiddenDefault :
    let body (target : UInt8) := (hiddenDefault target).decode delegateDialect
    let endsAt (target : UInt8) (stop : Nat) := ∃ chain, (body target).ScansTo 40 11 chain ∧
      (body target).checkedEnd 0 40 chain = some stop ∧
      ∀ found, chain = .reachesDefault found → 0 < found ∧ found < (body target).instructions.size
    (body 0x0F).instructions[0]?.map (·.endPosition) = some 11 ∧
      endsAt 0x0F 34 ∧ endsAt 0x0B 40 ∧ endsAt 0x11 17 ∧ endsAt 0xF0 40 := by
  intro body endsAt
  have hends : ∀ target stop, (body target).instructions[0]?.map (·.endPosition) = some 11 ∧
      (body target).switchEnd 0 40 = stop → endsAt target stop := by
    rintro target stop ⟨hmap, hstop⟩
    obtain ⟨switch, hswitch, hposition⟩ := Option.map_eq_some_iff.1 hmap
    obtain ⟨-, -, -, hscan⟩ := switchEnd_checked (hiddenDefault target) delegateDialect 0 40
    obtain ⟨chain, hchain, hchecked, hfound⟩ := hscan switch hswitch
    exact ⟨chain, hposition ▸ hchain, hchecked.trans (congrArg some hstop), hfound⟩
  have hhidden : (body 0x0F).instructions[0]?.map (·.endPosition) = some 11 ∧ (body 0x0F).switchEnd 0 40 = 34 := by
    decide +kernel
  refine ⟨hhidden.1, hends 0x0F 34 hhidden, ?_, ?_, ?_⟩
  · exact hends 0x0B 40 (by decide +kernel)
  · exact hends 0x11 17 (by decide +kernel)
  · exact hends 0xF0 40 (by decide +kernel)

end ScriptBytecode
