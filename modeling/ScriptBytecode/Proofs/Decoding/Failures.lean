/-
Module: ScriptBytecode.Proofs.Decoding.Failures
Purpose: What decoding keeps when it fails. The loop over the instructions halts at a place, and a failure is that of
  the read which starts there; everything in front of that place has been read, and is read in the same way if the
  bytes end there. The offset of an error lies in the bytes that the read was given. A smaller declared size makes the
  loop halt earlier and changes nothing before.
Main exports: Blames, readInstruction_error_offset, Place.cutAt, readInstruction_cutAt, Looping.cutAt,
  Looping.shorten, halt_eq, decode_failure
-/
import ScriptBytecode.Proofs.Decoding.AddressSpaces
import ScriptBytecode.Proofs.Decoding.Devices
import ScriptBytecode.Proofs.Decoding.Locality

namespace ScriptBytecode

variable {σ α β : Type}

/-!
### Where errors point to
-/

/-- The input is a rest of a blob of `high` bytes, from `low` on at most. -/
structure Input.Inside (low high : Nat) (input : Input) : Prop where
  above : low ≤ input.offset
  total : input.offset + input.rest.length = high

theorem Input.Inside.reaches {low high : Nat} {input next : Input} (h : input.Inside low high)
    (hreach : input.Reaches next) : next.Inside low high :=
  ⟨Nat.le_trans h.above hreach.offset_le, hreach.offset_add_length.trans h.total⟩

theorem Input.Inside.offset_le {low high : Nat} {input : Input} (h : input.Inside low high) : input.offset ≤ high := by
  have := h.total
  omega

/-- Started inside, the computation ends inside, or its error points to an offset from `low` to `high`. -/
def Blames (inside : σ → Prop) (low high : Nat) (m : EStateM DecodeError σ α) : Prop :=
  ∀ state, inside state →
    match m state with
    | .ok _ next => inside next
    | .error e _ => low ≤ e.offset ∧ e.offset ≤ high

namespace Blames

variable {inside : σ → Prop} {low high : Nat}

theorem pure (value : α) : Blames inside low high (Pure.pure value : EStateM DecodeError σ α) :=
  fun _ h => h

theorem get : Blames inside low high (MonadState.get : EStateM DecodeError σ σ) :=
  fun _ h => h

theorem bind {m : EStateM DecodeError σ α} {rest : α → EStateM DecodeError σ β} (hm : Blames inside low high m)
    (hrest : ∀ value, Blames inside low high (rest value)) : Blames inside low high (m >>= rest) := by
  intro state hstate
  have hfirst := hm state hstate
  rw [bind_apply]
  cases hread : m state with
  | ok value next =>
      rw [hread] at hfirst
      exact hrest value next hfirst
  | error e next =>
      rw [hread] at hfirst
      exact hfirst

/-- A read that goes forward ends inside, so only its error has to be looked at. -/
theorem of_moves {reader : Reader α} (hmoves : Moves Input.Reaches reader)
    (herror : ∀ input e next, input.Inside low high → reader input = .error e next →
      low ≤ e.offset ∧ e.offset ≤ high) :
    Blames (Input.Inside low high) low high reader := by
  intro input hinput
  cases hread : reader input with
  | ok value next => exact hinput.reaches (hmoves.of_ok hread)
  | error e next => exact herror input e next hinput hread

end Blames

namespace Reader

variable {low high : Nat}

theorem blames_take (n : Nat) : Blames (Input.Inside low high) low high (take n) := by
  refine .of_moves (moves_take n) fun input e next hinput h => ?_
  unfold take at h
  split at h
  · cases h
  · cases h
    exact ⟨hinput.above, hinput.offset_le⟩

theorem blames_byte : Blames (Input.Inside low high) low high byte := by
  refine .of_moves moves_byte fun input e next hinput h => ?_
  unfold byte at h
  split at h
  · cases h
  · cases h
    exact ⟨hinput.above, hinput.offset_le⟩

theorem blames_dword : Blames (Input.Inside low high) low high dword := (blames_take 4).bind fun _ => .pure _

theorem blames_int : Blames (Input.Inside low high) low high int := blames_dword.bind fun _ => .pure _

/-- A compact index that cannot be read is blamed on its first byte. -/
theorem blames_throw {start : Nat} (hstart : low ≤ start ∧ start ≤ high) :
    Blames (Input.Inside low high) low high (throw (.invalidCompactIndex start) : Reader α) :=
  fun _ _ => hstart

theorem blames_compactTail {start : Nat} (hstart : low ≤ start ∧ start ≤ high) (left scale : Nat) :
    Blames (Input.Inside low high) low high (compactTail start left scale) := by
  induction left generalizing scale with
  | zero => exact blames_throw hstart
  | succ left ih =>
      refine blames_byte.bind fun next => ?_
      split
      · exact (ih _).bind fun _ => .pure _
      · exact .pure _

theorem blames_compactIndex : Blames (Input.Inside low high) low high compactIndex := by
  intro input hinput
  -- The offset that is blamed is taken before the first byte, and so from outside the reads that fail.
  have hstart : low ≤ input.offset ∧ input.offset ≤ high := ⟨hinput.above, hinput.offset_le⟩
  have hrest : Blames (Input.Inside low high) low high (do
      let first ← byte
      let magnitude ← compactMagnitude input.offset first
      compactValue input.offset first magnitude) := by
    refine blames_byte.bind fun first => .bind ?_ fun magnitude => ?_
    · unfold compactMagnitude
      split
      · exact (blames_compactTail hstart _ _).bind fun _ => .pure _
      · exact .pure _
    · unfold compactValue
      split
      · exact blames_throw hstart
      · split <;> exact .pure _
  exact hrest input hinput

theorem blames_ansiString : Blames (Input.Inside low high) low high ansiString := by
  refine .of_moves moves_ansiString fun input e next hinput h => ?_
  unfold ansiString at h
  split at h
  · cases h
  · cases h
    exact ⟨hinput.above, hinput.offset_le⟩

theorem blames_wideString : Blames (Input.Inside low high) low high wideString := by
  refine .of_moves moves_wideString fun input e next hinput h => ?_
  unfold wideString at h
  split at h
  · cases h
  · cases h
    exact ⟨hinput.above, hinput.offset_le⟩

end Reader

section Blame

variable {low high : Nat} {format : Format}

theorem Decoder.blames_index : Blames (Input.Inside low high) low high (Decoder.index format) := by
  unfold Decoder.index
  split
  · exact Reader.blames_int
  · exact Reader.blames_compactIndex

theorem Primitive.blames {reader : Reader α} {width : α → Nat} (h : Primitive format reader width) :
    Blames (Input.Inside low high) low high reader := by
  cases h with
  | byte => exact Reader.blames_byte
  | word => exact (Reader.blames_take 2).bind fun _ => .pure _
  | dword => exact Reader.blames_dword
  | int => exact Reader.blames_int
  | single => exact Reader.blames_dword.bind fun _ => .pure _
  | ansiString => exact Reader.blames_ansiString
  | wideString => exact Reader.blames_wideString
  | name =>
      refine Decoder.blames_index.bind fun _ => ?_
      split
      · exact Reader.blames_int.bind fun _ => .pure _
      · exact Blames.bind (.pure _) fun _ => .pure _
  | object => exact Decoder.blames_index.bind fun _ => .pure _

/-- A place inside a blob. -/
def Place.Inside (low high : Nat) (place : Place) : Prop := place.input.Inside low high

theorem Decoder.blames_lift {reader : Reader α} (h : Blames (Input.Inside low high) low high reader)
    (width : α → Nat) : Blames (Place.Inside low high) low high (Decoder.lift reader width) := by
  intro place hplace
  have hinput := h place.input hplace
  unfold Decoder.lift
  cases hread : reader place.input with
  | ok value next =>
      rw [hread] at hinput
      exact hinput
  | error e next =>
      rw [hread] at hinput
      exact hinput

theorem Blames.relates (format : Format) (low high : Nat) :
    Device.Relates format Device.decoder Device.decoder fun m _ => Blames (Place.Inside low high) low high m where
  pure := Blames.pure
  bind := Blames.bind
  read h := Decoder.blames_lift h.blames _
  place := Blames.get
  exhausted _ hplace := ⟨hplace.above, hplace.offset_le⟩

/-- An instruction that cannot be read is blamed on one of the bytes that it was to be read from, or on their end. The
    induction is on the levels. -/
theorem blames_readInstruction (dialect : Dialect) (low high levels : Nat) :
    Blames (Place.Inside low high) low high (readInstruction dialect levels) := by
  have hR := Blames.relates dialect.format low high
  induction levels with
  | zero => exact fun place hplace => ⟨hplace.above, hplace.offset_le⟩
  | succ levels ih =>
      refine Blames.get.bind fun _ => hR.code.bind fun code => Blames.bind ?_ fun _ => Blames.get.bind fun _ => .pure _
      rw [← Device.decoder_layout]
      exact hR.layout_self ih _

theorem readInstruction_error_offset {dialect : Dialect} {levels : Nat} {place next : Place} {e : DecodeError}
    (h : readInstruction dialect levels place = .error e next) :
    place.input.offset ≤ e.offset ∧ e.offset ≤ place.input.offset + place.input.rest.length := by
  have hblames := blames_readInstruction dialect place.input.offset _ levels place ⟨Nat.le_refl _, rfl⟩
  rw [h] at hblames
  exact hblames

end Blame

/-!
### Bytes that end early
-/

section Shifting

variable {logical storage : Nat}

theorem shiftList_eq_self {operands : List Instruction} (h : ∀ c ∈ operands, c.shift logical storage = c) :
    shiftList logical storage operands = operands := by
  rw [shiftList_eq_map, List.map_congr_left h, List.map_id']

theorem shiftOption_eq_self {operand : Option Instruction} (h : ∀ c, operand = some c → c.shift logical storage = c) :
    shiftOption logical storage operand = operand := by
  cases operand with
  | none => rfl
  | some c => rw [shiftOption, h c rfl]

/-- A token whose operands stay the same when they are shifted stays the same. -/
theorem shiftToken_eq_self {token : Token Instruction} (h : ∀ c ∈ token.operands, c.shift logical storage = c) :
    shiftToken logical storage token = token := by
  cases token <;> simp_all [shiftToken, Token.operands, shiftList_eq_self, shiftOption_eq_self]

end Shifting

theorem Instruction.shift_zero (i : Instruction) : i.shift 0 0 = i := by
  induction i using inductionOnOperands with
  | step i ih =>
    have htoken := shiftToken_eq_self ih
    obtain ⟨code, opcode, position, size, storagePosition, storageSize, token⟩ := i
    rw [Instruction.shift, htoken]
    rfl

/-- The same place of a blob that ends at `stop`. -/
def Place.cutAt (stop : Nat) (place : Place) : Place :=
  ⟨place.position, place.input.offset, place.input.rest.take (stop - place.input.offset)⟩

/-- An instruction that ends before the blob is cut is read as before. -/
theorem readInstruction_cutAt {dialect : Dialect} {levels stop : Nat} {place next : Place} {i : Instruction}
    (h : readInstruction dialect levels place = .ok i next) (hstop : next.input.offset ≤ stop) :
    readInstruction dialect levels (place.cutAt stop) = .ok i (next.cutAt stop) := by
  have hshows : Slice.Shows ⟨0, 0, stop⟩ place (place.cutAt stop) := ⟨rfl, rfl, rfl⟩
  obtain ⟨j, ⟨position, offset, rest⟩, hread, hshift, hposition, hoffset, hrest⟩ :=
    mirrors_readInstruction ⟨0, 0, stop⟩ dialect levels (Nat.le_refl _) _ _ _ _ h hshows hstop
  rw [hread, hshift, Instruction.shift_zero, Place.cutAt, ← hrest]
  cases hposition
  cases hoffset
  rfl

namespace Looping

variable {dialect : Dialect} {declaredSize : Nat} {place halt : Place} {instructions : List Instruction}
  {failure : Option DecodeError}

/-- No instruction stands before the place that the loop starts from. -/
theorem start_le (h : Looping dialect declaredSize place instructions failure halt) :
    ∀ i ∈ instructions, place.position ≤ i.position := by
  induction h with
  | stop => exact fun i hi => by cases hi
  | fail => exact fun i hi => by cases hi
  | step _ hread _ ih =>
      have hspans := readInstruction_spans hread
      intro i hi
      rcases List.mem_cons.1 hi with rfl | hi
      · exact Nat.le_of_eq hspans.position.symm
      · exact Nat.le_trans hspans.reaches.position (ih i hi)

/-- A failure is that of the read which starts where the loop halts. -/
theorem read_of_failure (h : Looping dialect declaredSize place instructions failure halt) {e : DecodeError}
    (hfailure : failure = some e) : ∃ next, readInstruction dialect maxNesting halt = .error e next := by
  induction h with
  | stop => cases hfailure
  | fail _ hread =>
      cases hfailure
      exact ⟨_, hread⟩
  | step _ _ _ ih => exact ih hfailure

/-- If the bytes end where the loop halts, it reads the same instructions and does not fail. -/
theorem cutAt (h : Looping dialect declaredSize place instructions failure halt) :
    Looping dialect declaredSize (place.cutAt halt.input.offset) instructions none (halt.cutAt halt.input.offset) := by
  have hclosed : ∀ place : Place, ¬(place.cutAt place.input.offset).Open declaredSize := by
    intro place hopen
    apply hopen.bytes
    rw [Place.cutAt, Nat.sub_self, List.take_zero]
  induction h with
  | stop => exact .stop (hclosed _)
  | fail => exact .stop (hclosed _)
  | step hopen hread hrest ih =>
      -- The instruction may have looked at bytes that are cut off; it has taken none of them.
      have hcut := readInstruction_cutAt hread hrest.reaches.input.offset_le
      exact .step ⟨hopen.below, rest_ne_nil_of_readInstruction hcut⟩ hcut ih

/-- A smaller declared size ends the loop at the first instruction that does not start below it. -/
theorem shorten (h : Looping dialect declaredSize place instructions failure halt) {size : Nat}
    (hsize : size ≤ declaredSize) :
    ∃ halt', Looping dialect size place (instructions.filter (·.position < size))
      (if halt.position < size then failure else none) halt' := by
  induction h with
  | @stop place hstop =>
      rw [ite_self]
      exact ⟨place, .stop fun hopen => hstop ⟨Nat.lt_of_lt_of_le hopen.below hsize, hopen.bytes⟩⟩
  | @fail place next e hopen hread =>
      by_cases hbelow : place.position < size
      · rw [if_pos hbelow]
        exact ⟨place, .fail ⟨hbelow, hopen.bytes⟩ hread⟩
      · rw [if_neg hbelow]
        exact ⟨place, .stop fun hopen => hbelow hopen.below⟩
  | @step place next halt i rest failure hopen hread hrest ih =>
      have hlooping := Looping.step hopen hread hrest
      by_cases hbelow : place.position < size
      · obtain ⟨halt', hshort⟩ := ih
        have hkept : decide (i.position < size) = true :=
          decide_eq_true ((readInstruction_spans hread).position ▸ hbelow)
        rw [List.filter_cons, if_pos hkept]
        exact ⟨halt', .step ⟨hbelow, hopen.bytes⟩ hread hshort⟩
      · -- All that follows stands at this place or behind it.
        have hnone : (i :: rest).filter (·.position < size) = [] := by
          refine List.filter_eq_nil_iff.2 fun j hj hlt => ?_
          exact hbelow (Nat.lt_of_le_of_lt (hlooping.start_le j hj) (of_decide_eq_true hlt))
        have hhalt : ¬halt.position < size := fun hlt =>
          hbelow (Nat.lt_of_le_of_lt hlooping.reaches.position hlt)
        rw [hnone, if_neg hhalt]
        exact ⟨place, .stop fun hopen => hbelow hopen.below⟩

end Looping

/-!
### Bodies
-/

/-- Number of bytes that the kept instructions take. -/
def Body.stored (body : Body) : Nat := (body.instructions.back?.map (·.storageEnd)).getD 0

/-- Decoding halts behind the last instruction that is kept. -/
theorem halt_eq (source : Source) (dialect : Dialect) :
    source.halt dialect =
      ⟨(source.decode dialect).consumed, (source.decode dialect).stored,
        source.bytes.drop (source.decode dialect).stored⟩ := by
  have hlooping := looping_decode source dialect
  have hposition : (source.halt dialect).position = (source.decode dialect).consumed := by
    rw [hlooping.end_eq fun hspans => hspans.endPosition, Array.getLast?_toList]
    rfl
  have hoffset : (source.halt dialect).input.offset = (source.decode dialect).stored := by
    rw [hlooping.end_eq fun hspans => hspans.storageEnd, Array.getLast?_toList]
    rfl
  obtain ⟨read, hread, hlength⟩ := hlooping.reaches.input
  have hrest : (source.halt dialect).input.rest = source.bytes.drop (source.halt dialect).input.offset := by
    have hbytes : source.bytes = read ++ (source.halt dialect).input.rest := hread
    have hlength : (source.halt dialect).input.offset = 0 + read.length := hlength
    rw [hlength, Nat.zero_add, hbytes, List.drop_left]
  rw [← hposition, ← hoffset, ← hrest]

/-- If decoding fails, then on the instruction behind those that it keeps. Its error points to a byte from there on or
    to the end of the bytes, and without those bytes the same instructions are decoded without a failure. A smaller
    declared size keeps the instructions that start below it, and the failure if the instruction that fails starts
    below it. -/
theorem decode_failure (source : Source) (dialect : Dialect) :
    (∀ e, (source.decode dialect).failure = some e →
      (∃ next, readInstruction dialect maxNesting (source.halt dialect) = .error e next) ∧
      source.halt dialect = ⟨(source.decode dialect).consumed, (source.decode dialect).stored,
        source.bytes.drop (source.decode dialect).stored⟩ ∧
      ((source.decode dialect).stored ≤ e.offset ∧ e.offset ≤ source.bytes.length) ∧
      (Source.decode { source with bytes := source.bytes.take (source.decode dialect).stored } dialect).instructions =
        (source.decode dialect).instructions ∧
      (Source.decode { source with bytes := source.bytes.take (source.decode dialect).stored } dialect).failure =
        none) ∧
    ∀ n m, n ≤ m →
      (Source.decode { source with declaredSize := n } dialect).instructions =
        (Source.decode { source with declaredSize := m } dialect).instructions.filter (·.position < n) ∧
      ∀ e, (Source.decode { source with declaredSize := n } dialect).failure = some e ↔
        (Source.decode { source with declaredSize := m } dialect).failure = some e ∧
          (Source.halt { source with declaredSize := m } dialect).position < n := by
  constructor
  · intro e hfailure
    have hhalt := halt_eq source dialect
    have hlooping := looping_decode source dialect
    obtain ⟨next, hread⟩ := hlooping.read_of_failure hfailure
    obtain ⟨habove, hbelow⟩ := readInstruction_error_offset hread
    have hlength : _ = 0 + source.bytes.length := hlooping.reaches.input.offset_add_length
    have hcut := hlooping.cutAt
    rw [hlength, Nat.zero_add] at hbelow
    rw [hhalt] at habove hcut
    obtain ⟨hinstructions, hnone⟩ :=
      decode_of_looping { source with bytes := source.bytes.take (source.decode dialect).stored } hcut
    rw [Array.toArray_toList] at hinstructions
    exact ⟨⟨next, hread⟩, hhalt, ⟨habove, hbelow⟩, hinstructions, hnone⟩
  · intro n m hle
    obtain ⟨halt, hshort⟩ := (looping_decode { source with declaredSize := m } dialect).shorten hle
    obtain ⟨hinstructions, hfailure⟩ := decode_of_looping { source with declaredSize := n } hshort
    constructor
    · rw [hinstructions, ← Array.toList_filter, Array.toArray_toList]
    · intro e
      rw [hfailure]
      split
      case isTrue hbelow => exact (and_iff_left hbelow).symm
      case isFalse hbehind =>
          constructor
          · intro h
            cases h
          · exact fun h => absurd h.2 hbehind

/-- A return of nothing, and an assignment whose value is missing. -/
def cutAssignment : Source := ⟨"", [0x04, 0x0B, 0x0F, 0x00, 1, 0, 0, 0], 40⟩

theorem decode_failure_cutAssignment :
    ((cutAssignment.decode (stockDialect 600)).failure = some (.truncated 8 1) ∧
      cutAssignment.halt (stockDialect 600) = ⟨2, 2, [0x0F, 0x00, 1, 0, 0, 0]⟩ ∧
      (cutAssignment.decode (stockDialect 600)).stored ≤ 8 ∧
      (Source.decode ⟨"", [0x04, 0x0B], 40⟩ (stockDialect 600)).failure = none) ∧
    2 ≤ 40 ∧ (Source.decode ⟨"", cutAssignment.bytes, 2⟩ (stockDialect 600)).instructions =
      (cutAssignment.decode (stockDialect 600)).instructions.filter (·.position < 2) := by
  obtain ⟨hfails, hsizes⟩ := decode_failure cutAssignment (stockDialect 600)
  have hfailure : (cutAssignment.decode (stockDialect 600)).failure = some (.truncated 8 1) := rfl
  obtain ⟨-, hhalt, ⟨hoffset, -⟩, -, hnone⟩ := hfails _ hfailure
  exact ⟨⟨hfailure, hhalt, hoffset, hnone⟩, by decide, (hsizes 2 40 (by decide)).1⟩

end ScriptBytecode
