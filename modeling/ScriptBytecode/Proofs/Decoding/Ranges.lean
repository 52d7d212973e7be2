/-
Module: ScriptBytecode.Proofs.Decoding.Ranges
Purpose: How far the logical position can get. No read is more than four times as wide in the logical address space as
  in storage, and where indices are integers no read is more than twice as wide; so the position never gets further
  ahead than that of the bytes that have been read, at any moment of a run and also of one that fails. For bodies of
  less than a gibibyte everything that is added up or subtracted in the logical address space then fits into 32 bits.
Main exports: Machine.Keeps, Machine.keeps_read, Source.trace, Place.Widens, Moment.InRange, decode_in_range
-/
import ScriptBytecode.Geometry
import ScriptBytecode.Proofs.Decoding.AddressSpaces
import ScriptBytecode.Proofs.Decoding.Machine

namespace ScriptBytecode

variable {α β : Type}

/-!
### Moments of a run
-/

/-- The places of a moment are related to a place before it and to each other, in their order. -/
def Moment.From (R : Place → Place → Prop) (place : Place) : Moment → Prop
  | .enters _ start => R place start
  | .reads before after => R place before ∧ R before after
  | .measures start stop => R place start ∧ R start stop

theorem Moment.From.after {R : Place → Place → Prop} (hR : Preorderly R) {place middle : Place} {moment : Moment}
    (hreach : R place middle) (h : moment.From R middle) : moment.From R place := by
  cases moment with
  | enters depth start => exact hR.trans hreach h
  | reads before after => exact ⟨hR.trans hreach h.1, h.2⟩
  | measures start stop => exact ⟨hR.trans hreach h.1, h.2⟩

/-- The registers that a run leaves. -/
def Execution.stop (run : Execution α) : Registers :=
  match run.result with
  | .ok _ next => next
  | .error _ next => next

theorem Execution.stop_of_ok {run : Execution α} {value : α} {next : Registers} (h : run.result = .ok value next) :
    run.stop = next := by
  rw [Execution.stop, h]

theorem Execution.stop_of_error {run : Execution α} {e : DecodeError} {next : Registers}
    (h : run.result = .error e next) : run.stop = next := by
  rw [Execution.stop, h]

namespace Machine

theorem stop_read (reader : Reader α) (width : α → Nat) (registers : Registers) :
    (device.read reader width registers).stop.place = stopOf (Decoder.lift reader width) registers.place := by
  unfold stopOf
  show Registers.place (Execution.stop ⟨withDepth _ (Decoder.lift reader width registers.place), _⟩) = _
  cases Decoder.lift reader width registers.place <;> rfl

theorem stop_enter (limit : Option Nat) (registers : Registers) : (enter limit registers).stop = registers := by
  unfold enter
  split <;> rfl

theorem stop_deeper (m : Machine α) (registers : Registers) :
    (deeper m registers).stop.place = (m ⟨registers.place, registers.depth + 1⟩).stop.place := by
  show Registers.place (Execution.stop ⟨surface (m ⟨registers.place, registers.depth + 1⟩).result, _⟩) = _
  unfold Execution.stop
  cases (m ⟨registers.place, registers.depth + 1⟩).result <;> rfl

theorem stop_measured (m : Machine α) (registers : Registers) :
    (measured m registers).stop = (m registers).stop := by
  unfold measured
  cases hresult : (m registers).result with
  | ok value next => exact (Execution.stop_of_ok hresult).symm
  | error e next => exact (Execution.stop_of_error hresult).symm

/-- From its start on all moments of a run are related, and so is its end. -/
structure Keeps (R : Place → Place → Prop) (m : Machine α) : Prop where
  log : ∀ registers, ∀ moment ∈ (m registers).log, moment.From R registers.place
  stop : ∀ registers, R registers.place (m registers).stop.place

namespace Keeps

variable {R : Place → Place → Prop}

theorem bind (hR : Preorderly R) {m : Machine α} {rest : α → Machine β} (hm : Keeps R m)
    (hrest : ∀ value, Keeps R (rest value)) : Keeps R (m >>= rest) := by
  constructor
  · intro registers moment hmoment
    cases hresult : (m registers).result with
    | ok value next =>
        rw [bind_of_ok hresult] at hmoment
        rcases List.mem_append.1 hmoment with hfirst | hsecond
        · exact hm.log registers moment hfirst
        · have hreach := hm.stop registers
          rw [Execution.stop_of_ok hresult] at hreach
          exact ((hrest value).log next moment hsecond).after hR hreach
    | error e next =>
        rw [bind_of_error hresult] at hmoment
        exact hm.log registers moment hmoment
  · intro registers
    have hreach := hm.stop registers
    cases hresult : (m registers).result with
    | ok value next =>
        rw [Execution.stop_of_ok hresult] at hreach
        rw [bind_of_ok hresult]
        exact hR.trans hreach ((hrest value).stop next)
    | error e next =>
        rw [Execution.stop_of_error hresult] at hreach
        rw [bind_of_error hresult]
        exact hreach

/-- A run without moments that stays where it is. -/
theorem of_silent (hR : Preorderly R) {m : Machine α} (hlog : ∀ registers, (m registers).log = [])
    (hstop : ∀ registers, (m registers).stop.place = registers.place) : Keeps R m where
  log registers moment hmoment := by
    rw [hlog registers] at hmoment
    cases hmoment
  stop registers := by
    rw [hstop registers]
    exact hR.refl _

theorem read {reader : Reader α} {width : α → Nat} (hR : Preorderly R) (h : Moves R (Decoder.lift reader width)) :
    Keeps R (device.read reader width) where
  log registers moment hmoment := by
    cases List.mem_singleton.1 hmoment
    exact ⟨hR.refl _, h registers.place⟩
  stop registers := stop_read reader width registers ▸ h registers.place

theorem enter (hR : Preorderly R) (limit : Option Nat) : Keeps R (enter limit) where
  log registers moment hmoment := by
    cases List.mem_singleton.1 hmoment
    exact hR.refl _
  stop registers := (stop_enter limit registers).symm ▸ hR.refl _

theorem deeper {m : Machine α} (h : Keeps R m) : Keeps R (deeper m) where
  log registers := h.log ⟨registers.place, registers.depth + 1⟩
  stop registers := stop_deeper m registers ▸ h.stop ⟨registers.place, registers.depth + 1⟩

theorem measured {m : Machine α} (hR : Preorderly R) (h : Keeps R m) : Keeps R (measured m) where
  log registers moment hmoment := by
    unfold Machine.measured at hmoment
    cases hresult : (m registers).result with
    | ok value next =>
        have hstop := h.stop registers
        rw [Execution.stop_of_ok hresult] at hstop
        rw [hresult] at hmoment
        rcases List.mem_append.1 hmoment with hinner | hlast
        · exact h.log registers moment hinner
        · cases List.mem_singleton.1 hlast
          exact ⟨hR.refl _, hstop⟩
    | error e next =>
        rw [hresult] at hmoment
        exact h.log registers moment hmoment
  stop registers := stop_measured m registers ▸ h.stop registers

/-- What the reads of a format respect is kept by everything that is made of them. -/
theorem respects {format : Format} (hR : PrimitiveMoves R format) (limit : Option Nat) :
    Respects format limit limit fun m _ => Keeps R m where
  pure _ := of_silent hR.toPreorderly (fun _ => rfl) fun _ => rfl
  bind := bind hR.toPreorderly
  read h := read hR.toPreorderly (hR.primitive h)
  place := of_silent hR.toPreorderly (fun _ => rfl) fun _ => rfl
  exhausted := of_silent hR.toPreorderly (fun _ => rfl) fun _ => rfl
  enter := enter hR.toPreorderly limit
  deeper := deeper
  measured := measured hR.toPreorderly

end Keeps

/-- What the reads of a format respect is kept by the machine. -/
theorem keeps_read {R : Place → Place → Prop} {dialect : Dialect} (hR : PrimitiveMoves R dialect.format)
    (limit : Option Nat) : Keeps R (Machine.read dialect limit) where
  log registers := ((Keeps.respects hR limit).readWithin _).log registers
  stop registers := ((Keeps.respects hR limit).readWithin _).stop registers

end Machine

/-!
### Whole bodies
-/

namespace Source

/-- Reads top-level instructions as `readFrom` does, with the log of all that happens. -/
def traceFrom (dialect : Dialect) (declaredSize : Nat) :
    (bound : Nat) → Place → (List Instruction × Option DecodeError) × List Moment
  | 0, _ => (([], none), [])
  | bound + 1, place =>
    if place.position < declaredSize && !place.input.rest.isEmpty then
      let run := Machine.read dialect (some maxNesting) ⟨place, 0⟩
      match run.result with
      | .ok instruction next =>
        let rest := traceFrom dialect declaredSize bound next.place
        ((instruction :: rest.1.1, rest.1.2), run.log ++ rest.2)
      | .error failure _ => (([], some failure), run.log)
    else
      (([], none), [])

/-- Decodes a body, with the log of all that happens. -/
def trace (source : Source) (dialect : Dialect) : (List Instruction × Option DecodeError) × List Moment :=
  traceFrom dialect source.declaredSize source.bytes.length (.start source.bytes)

end Source

section Traces

variable {dialect : Dialect} {declaredSize : Nat}

/-- The log is that of decoding. -/
theorem traceFrom_fst (dialect : Dialect) (declaredSize bound : Nat) (place : Place) :
    (Source.traceFrom dialect declaredSize bound place).1 = Source.readFrom dialect declaredSize bound place := by
  induction bound generalizing place with
  | zero => rfl
  | succ bound ih =>
      have hrun : (Machine.read dialect (some maxNesting) ⟨place, 0⟩).result =
          Machine.withDepth 0 (readInstruction dialect maxNesting place) :=
        Machine.follows_read dialect maxNesting 0 place
      unfold Source.traceFrom Source.readFrom
      split
      · dsimp only
        rw [hrun]
        cases readInstruction dialect maxNesting place with
        | ok i next =>
            dsimp only [Machine.withDepth]
            rw [ih next]
        | error e next => rfl
      · rfl

variable {R : Place → Place → Prop} (hR : PrimitiveMoves R dialect.format)
include hR

/-- What the reads of a format respect holds from the start of decoding to each of its moments. -/
theorem traceFrom_from (bound : Nat) (place : Place) :
    ∀ moment ∈ (Source.traceFrom dialect declaredSize bound place).2, moment.From R place := by
  induction bound generalizing place with
  | zero => exact fun moment hmoment => by cases hmoment
  | succ bound ih =>
      intro moment hmoment
      have hkeeps := Machine.keeps_read hR (some maxNesting)
      unfold Source.traceFrom at hmoment
      split at hmoment
      · cases hresult : (Machine.read dialect (some maxNesting) ⟨place, 0⟩).result with
        | ok i next =>
            dsimp only at hmoment
            rw [hresult] at hmoment
            rcases List.mem_append.1 hmoment with hfirst | hrest
            · exact hkeeps.log ⟨place, 0⟩ moment hfirst
            · have hreach := hkeeps.stop ⟨place, 0⟩
              rw [Execution.stop_of_ok hresult] at hreach
              exact (ih next.place moment hrest).after hR.toPreorderly hreach
        | error e next =>
            dsimp only at hmoment
            rw [hresult] at hmoment
            exact hkeeps.log ⟨place, 0⟩ moment hmoment
      · cases hmoment

end Traces

/-!
### Widths
-/

/-- How many times as wide as in storage a read of the format is at most. -/
def Format.widening (format : Format) : Nat := if format.has .plainIndex then 2 else 4

theorem Format.widening_pos (format : Format) : 1 ≤ format.widening := by
  unfold Format.widening
  split <;> decide

theorem Format.widening_le (format : Format) : format.widening ≤ 4 := by
  unfold Format.widening
  split <;> decide

/-- A read that succeeds is at most `factor` times as wide as the bytes that it takes. -/
def Reader.Covers (factor : Nat) (reader : Reader α) (width : α → Nat) : Prop :=
  ∀ ⦃input next value⦄, reader input = .ok value next → width value + factor * input.offset ≤ factor * next.offset

namespace Reader

theorem Takes.covers {reader : Reader α} {taken width : α → Nat} {factor : Nat} (h : Takes reader taken)
    (hwidth : ∀ value, width value ≤ factor * taken value) : Covers factor reader width := by
  intro input next value hread
  rw [h hread, Nat.mul_add]
  have := hwidth value
  omega

/-- A compact index takes a byte at least. -/
theorem compactIndex_ok {input next : Input} {index : Int32} (h : compactIndex input = .ok index next) :
    input.offset < next.offset := by
  obtain ⟨start, input', hget, h⟩ := bind_eq_ok h
  cases hget
  obtain ⟨first, middle, hfirst, h⟩ := bind_eq_ok h
  have hrest : middle.Reaches next := (Input.Reaches.preorderly.bind (moves_compactMagnitude _ _) fun _ =>
    moves_compactValue _ _ _).of_ok h
  have hbyte : middle.offset = input.offset + 1 := takes_byte hfirst
  have hoffset := hrest.offset_le
  omega

theorem covers_compactIndex : Covers 4 compactIndex fun _ => 4 := by
  intro input next index h
  have hoffset := compactIndex_ok h
  show 4 + 4 * input.offset ≤ 4 * next.offset
  omega

/-- What is read behind it only adds to the bytes. -/
theorem Covers.bind {reader : Reader α} {rest : α → Reader β} {factor width : Nat}
    (h : Covers factor reader fun _ => width) (hrest : ∀ value, Moves Input.Reaches (rest value)) :
    Covers factor (reader >>= rest) fun _ => width := by
  intro input next value hread
  obtain ⟨first, middle, hfirst, hsecond⟩ := bind_eq_ok hread
  exact Nat.le_trans (h hfirst) (Nat.mul_le_mul_left factor ((hrest first).of_ok hsecond).offset_le)

end Reader

/-- A later place, up to which the logical position has gone at most `factor` times as far as the storage offset. -/
structure Place.Widens (factor : Nat) (place next : Place) : Prop where
  reaches : place.Reaches next
  position : next.position + factor * place.input.offset ≤ place.position + factor * next.input.offset

namespace Place.Widens

variable {factor : Nat}

theorem preorderly (factor : Nat) : Preorderly (Widens factor) where
  refl place := ⟨Place.Reaches.preorderly.refl place, Nat.le_refl _⟩
  trans h h' := by
    refine ⟨Place.Reaches.preorderly.trans h.reaches h'.reaches, ?_⟩
    have hfirst := h.position
    have hsecond := h'.position
    omega

/-- A read that fails has moved in storage only. -/
theorem moves_lift {reader : Reader α} {width : α → Nat} (hreaches : Moves Place.Reaches (Decoder.lift reader width))
    (hcovers : reader.Covers factor width) : Moves (Widens factor) (Decoder.lift reader width) := by
  intro place
  have hreach := hreaches place
  refine ⟨hreach, ?_⟩
  unfold stopOf Decoder.lift at hreach ⊢
  cases hread : reader place.input with
  | ok value next =>
      have hwidth := hcovers hread
      dsimp only
      omega
  | error e next =>
      rw [hread] at hreach
      exact Nat.add_le_add_left (Nat.mul_le_mul_left factor hreach.input.offset_le) _

end Place.Widens

/-- What comes with a later version is not there without what came before. -/
theorem Format.has_eq_false {format : Format} {feature later : Feature} (h : format.has feature = false)
    (hsince : feature.since ≤ later.since) : format.has later = false :=
  decide_eq_false fun hlater => of_decide_eq_false h (Nat.le_trans hsince hlater)

namespace Decoder

theorem covers_name (format : Format) : Reader.Covers format.widening (do
    let index ← Decoder.index format
    let number ← if format.has .nameNumber then Reader.int else pure 0
    return (⟨index, number⟩ : NameRef)) fun _ => format.nameWidth := by
  cases hindex : format.has .plainIndex with
  | true => exact (takes_name hindex).covers fun _ => Nat.le_mul_of_pos_left _ format.widening_pos
  | false =>
      have hnumber : format.has .nameNumber = false := Format.has_eq_false hindex (by decide)
      rw [Format.widening, Format.nameWidth, Decoder.index, hindex, hnumber]
      exact Reader.covers_compactIndex.bind fun _ => Input.Reaches.preorderly.refl

theorem covers_object (format : Format) : Reader.Covers format.widening
    (do return (⟨← Decoder.index format⟩ : ObjectRef)) fun _ => format.objectWidth := by
  cases hindex : format.has .plainIndex with
  | true =>
      refine (takes_object hindex).covers fun _ => ?_
      rw [Format.widening, hindex, Format.objectWidth]
      split <;> decide
  | false =>
      have hwide : format.has .widePointers = false := Format.has_eq_false hindex (by decide)
      rw [Format.widening, Format.objectWidth, Decoder.index, hindex, hwide]
      exact Reader.covers_compactIndex.bind fun _ => Input.Reaches.preorderly.refl

end Decoder

/-- No read of the format widens the way by more than the format does. -/
theorem Place.Widens.primitiveMoves (format : Format) : PrimitiveMoves (Place.Widens format.widening) format := by
  have hreaches := Place.Reaches.primitiveMoves format
  have hplain : ∀ {α : Type} {reader : Reader α} {width : α → Nat}, reader.Takes width →
      reader.Covers format.widening width :=
    fun htakes => htakes.covers fun _ => Nat.le_mul_of_pos_left _ format.widening_pos
  exact {
    toPreorderly := Place.Widens.preorderly _
    byte := moves_lift hreaches.byte (hplain Reader.takes_byte)
    word := moves_lift hreaches.word (hplain Reader.takes_word)
    dword := moves_lift hreaches.dword (hplain Reader.takes_dword)
    int := moves_lift hreaches.int (hplain Reader.takes_int)
    single := moves_lift hreaches.single (hplain Reader.takes_single)
    ansiString := moves_lift hreaches.ansiString (hplain Reader.takes_ansiString)
    wideString := moves_lift hreaches.wideString (hplain Reader.takes_wideString)
    name := moves_lift hreaches.name (Decoder.covers_name format)
    object := moves_lift hreaches.object (Decoder.covers_object format) }

/-!
### Ranges
-/

/-- The places that a moment is about. -/
def Moment.places : Moment → List Place
  | .enters _ place => [place]
  | .reads before after => [before, after]
  | .measures start stop => [start, stop]

/-- What is computed at a moment fits into 32 bits: a read adds its width to the position before it, and sizes are
    differences of positions and of offsets. -/
def Moment.InRange : Moment → Prop
  | .enters _ place => place.position < 2 ^ 32
  | .reads before after => before.position ≤ after.position ∧ after.position < 2 ^ 32
  | .measures start stop => start.position ≤ stop.position ∧ start.input.offset ≤ stop.input.offset

/-- What is computed from an instruction fits into 32 bits: its end, the end of a jump where it stands, and the end of
    the instruction that it leads to, if that advances an iterator. -/
structure Instruction.InRange (i : Instruction) : Prop where
  endPosition : i.position + i.size < 2 ^ 32
  behindJump : i.position + jumpSize < 2 ^ 32
  behindTarget : ∀ target, i.jumpTarget? = some target → target + iteratorNextSize < 2 ^ 32

/-- Targets are stored in two bytes. -/
theorem Token.jumpTarget_lt {token : Token α} {target : Nat} (h : token.jumpTarget? = some target) :
    target < 2 ^ 16 := by
  unfold Token.jumpTarget? at h
  split at h
  case h_4 =>
    split at h
    · cases h
    · cases h
      exact UInt16.toNat_lt _
  case h_7 => cases h
  all_goals
    cases h
    exact UInt16.toNat_lt _

theorem Moment.From.of_mem {R : Place → Place → Prop} (hR : Preorderly R) {start : Place} {moment : Moment}
    (h : moment.From R start) : ∀ place ∈ moment.places, R start place := by
  cases moment with
  | enters depth place => exact List.forall_mem_singleton.2 h
  | reads before after => exact List.forall_mem_cons.2 ⟨h.1, List.forall_mem_singleton.2 (hR.trans h.1 h.2)⟩
  | measures start stop => exact List.forall_mem_cons.2 ⟨h.1, List.forall_mem_singleton.2 (hR.trans h.1 h.2)⟩

/-- An instruction that is not empty and ends far enough below 2^32. -/
theorem Instruction.InRange.of_end {i : Instruction} (hsize : 1 ≤ i.size) (hend : i.endPosition + 2 < 2 ^ 32) :
    i.InRange := by
  unfold Instruction.endPosition at hend
  refine ⟨by omega, ?_, fun target htarget => ?_⟩
  · unfold jumpSize
    omega
  · have hlt := Token.jumpTarget_lt htarget
    unfold iteratorNextSize
    omega

section Ranges

variable {bytes : List UInt8} {factor : Nat} {place : Place}

theorem Place.Widens.position_le (h : (Place.start bytes).Widens factor place) :
    place.position ≤ factor * place.input.offset := by
  have hposition := h.position
  simpa [Place.start, Input.ofBytes] using hposition

/-- For fewer than 2^30 bytes no position that is reached leaves 32 bits, and two more can be added to it: a jump is
    three wide, and every instruction one at least. -/
theorem Place.Widens.position_lt (h : (Place.start bytes).Widens factor place) (hfactor : factor ≤ 4)
    (hbytes : bytes.length < 2 ^ 30) : place.position + 2 < 2 ^ 32 := by
  have hposition := h.position_le
  have hlength : place.input.offset + place.input.rest.length = 0 + bytes.length := h.reaches.input.offset_add_length
  have hscaled : factor * place.input.offset ≤ 4 * place.input.offset := Nat.mul_le_mul_right _ hfactor
  omega

theorem Moment.From.inRange {moment : Moment} (h : moment.From (Place.Widens factor) (.start bytes))
    (hfactor : factor ≤ 4) (hbytes : bytes.length < 2 ^ 30) : moment.InRange := by
  have hlt : ∀ place ∈ moment.places, place.position < 2 ^ 32 := by
    intro place hplace
    have := (h.of_mem (Place.Widens.preorderly factor) place hplace).position_lt hfactor hbytes
    omega
  cases moment with
  | enters depth place => exact hlt place (List.mem_singleton_self _)
  | reads before after => exact ⟨h.2.reaches.position, hlt after (List.mem_cons_of_mem _ (List.mem_singleton_self _))⟩
  | measures start stop => exact ⟨h.2.reaches.position, h.2.reaches.input.offset_le⟩

end Ranges

/-- At every moment of decoding the logical position is at most four times the number of bytes that have been read, and
    at most twice that number in formats with integer indices. So for fewer than 2^30 bytes nothing that decoding or the
    recognition of jumps computes in the logical address space leaves 32 bits, also where decoding fails. -/
theorem decode_in_range (source : Source) (dialect : Dialect) :
    ((source.trace dialect).1.1.toArray = (source.decode dialect).instructions ∧
      (source.trace dialect).1.2 = (source.decode dialect).failure) ∧
    (∀ moment ∈ (source.trace dialect).2, ∀ place ∈ moment.places,
      place.position ≤ 4 * place.input.offset ∧
        (178 ≤ dialect.format.version → place.position ≤ 2 * place.input.offset)) ∧
    (source.bytes.length < 2 ^ 30 →
      (∀ moment ∈ (source.trace dialect).2, moment.InRange) ∧
        (source.decode dialect).Everywhere Instruction.InRange) := by
  have hR := Place.Widens.primitiveMoves dialect.format
  have hle := dialect.format.widening_le
  have hfst := traceFrom_fst dialect source.declaredSize source.bytes.length (.start source.bytes)
  have hfrom : ∀ moment ∈ (source.trace dialect).2,
      moment.From (Place.Widens dialect.format.widening) (.start source.bytes) :=
    traceFrom_from hR source.bytes.length (.start source.bytes)
  refine ⟨⟨congrArg (·.1.toArray) hfst, congrArg (·.2) hfst⟩, ?_, ?_⟩
  · intro moment hmoment place hplace
    have hposition := ((hfrom moment hmoment).of_mem hR.toPreorderly place hplace).position_le
    constructor
    · exact Nat.le_trans hposition (Nat.mul_le_mul_right _ hle)
    · intro hversion
      have hindex : dialect.format.has .plainIndex = true := decide_eq_true hversion
      rwa [Format.widening, if_pos hindex] at hposition
  · intro hbytes
    refine ⟨fun moment hmoment => (hfrom moment hmoment).inRange hle hbytes, ?_⟩
    intro i hi node hnode
    obtain ⟨start, stop, hstart, hread⟩ := exists_moves_of_mem_decode hR hi
    have hstop : start.Widens _ stop := (moves_readInstruction hR maxNesting).of_ok hread
    have hlt := (hR.trans hstart hstop).position_lt hle hbytes
    have hend := (hnode.within (decode_everywhere readInstruction_nests source i hi)).2.1
    have hsize := decode_everywhere (fun h => (readInstruction_spans h).size_pos) source i hi node hnode
    rw [(readInstruction_spans hread).endPosition] at hend
    exact Instruction.InRange.of_end hsize (by omega)

/-- An empty statement, and an assignment of a string that does not end to a local variable. -/
def brokenAssignment : Source := ⟨"", [0x0B, 0x0F, 0x00, 1, 0, 0, 0, 0x1F, 0x61], 20⟩

theorem decode_in_range_brokenAssignment :
    ((brokenAssignment.decode (stockDialect 600)).failure = some (.unterminatedString 8) ∧
      (brokenAssignment.trace (stockDialect 600)).2.getLast? = some (.reads ⟨12, 8, [0x61]⟩ ⟨12, 8, [0x61]⟩) ∧
      178 ≤ (stockDialect 600).format.version ∧ 12 ≤ 2 * 8) ∧
    brokenAssignment.bytes.length < 2 ^ 30 ∧ Moment.InRange (.reads ⟨12, 8, [0x61]⟩ ⟨12, 8, [0x61]⟩) ∧
      ∃ i ∈ (brokenAssignment.decode (stockDialect 600)).instructions, i.InRange := by
  obtain ⟨-, hpositions, hranges⟩ := decode_in_range brokenAssignment (stockDialect 600)
  have hlast : (brokenAssignment.trace (stockDialect 600)).2.getLast? =
      some (.reads ⟨12, 8, [0x61]⟩ ⟨12, 8, [0x61]⟩) := rfl
  have hmem := List.mem_of_getLast? hlast
  have hplace := (hpositions _ hmem _ (List.mem_cons_self ..)).2 (by decide)
  obtain ⟨hmoments, hinstructions⟩ := hranges (by decide)
  have hkept : ∃ i, (brokenAssignment.decode (stockDialect 600)).instructions[0]? = some i := ⟨_, rfl⟩
  obtain ⟨i, hi⟩ := hkept
  have hi := Array.mem_of_getElem? hi
  exact ⟨⟨rfl, hlast, by decide, hplace⟩, by decide, hmoments _ hmem, i, hi,
    hinstructions i hi i (Instruction.contains_iff.2 (.inl rfl))⟩

end ScriptBytecode
