/-
Module: ScriptBytecode.Proofs.Decoding.Locality
Purpose: What an instruction decodes to depends on its own bytes only. A read of a blob is compared with a read of a
  slice of it, whose places are those of the blob, moved back, up to the end of the slice. Reads look past what they
  take, for hidden instructions and for terminators that may be left out; what they see there decides nothing, since
  a read that follows up on it takes at least one byte more. Main statement: the bytes of an instruction, read on
  their own and with no level used up, give the same instruction with shifted addresses.
Main exports: Instruction.shift, Layout.Commutes, Slice, Slice.Mirrors, mirrors_readInstruction, readInstruction_slice
-/
import ScriptBytecode.Proofs.Decoding.Progress
import ScriptBytecode.Proofs.Encoding.Bytes

namespace ScriptBytecode

/-!
### Shifting
-/

section
variable (logical storage : Nat)

mutual

/-- The instruction with both addresses moved on, in every node of the tree. Sizes, kinds and the targets of jumps
    stay. -/
def Instruction.shift : Instruction → Instruction
  | ⟨code, opcode, position, size, storagePosition, storageSize, token⟩ =>
    ⟨code, opcode, position + logical, size, storagePosition + storage, storageSize, shiftToken token⟩

/-- The token with its operands shifted. -/
def shiftToken : Token Instruction → Token Instruction
  | .boolVariable expr => .boolVariable expr.shift
  | .defaultParmValue size statements => .defaultParmValue size (shiftList statements)
  | .returnValue value => .returnValue value.shift
  | .jumpIfNot target condition => .jumpIfNot target condition.shift
  | .switch property size value => .switch property size value.shift
  | .caseLabel target value => .caseLabel target (shiftOption value)
  | .iterator expr stop => .iterator expr.shift stop
  | .dynArrayIterator array item withIndex index stop =>
    .dynArrayIterator array.shift item.shift withIndex index.shift stop
  | .gotoLabel label => .gotoLabel label.shift
  | .assert line mode condition => .assert line mode condition.shift
  | .letValue target value => .letValue target.shift value.shift
  | .eatReturnValue property expr => .eatReturnValue property expr.shift
  | .skip size expr => .skip size expr.shift
  | .context object skip field fieldSize member =>
    .context object.shift skip field fieldSize member.shift
  | .interfaceContext expr => .interfaceContext expr.shift
  | .structMember property owner flags object => .structMember property owner flags object.shift
  | .arrayElement index array => .arrayElement index.shift array.shift
  | .dynArrayLength array => .dynArrayLength array.shift
  | .dynArrayMethod array skip args => .dynArrayMethod array.shift skip (shiftList args)
  | .call target args => .call target (shiftList args)
  | .primitiveCast cast interface expr => .primitiveCast cast interface expr.shift
  | .classCast target expr => .classCast target expr.shift
  | .structCmp type lhs rhs => .structCmp type lhs.shift rhs.shift
  | .delegateCmp lhs rhs => .delegateCmp lhs.shift rhs.shift
  | .conditional condition yesSkip yes noSkip no =>
    .conditional condition.shift yesSkip yes.shift noSkip no.shift
  | .newObject outer name flags type template =>
    .newObject outer.shift name.shift flags.shift type.shift (shiftOption template)
  | token => token

/-- Operands, shifted one by one. -/
def shiftList : List Instruction → List Instruction
  | [] => []
  | i :: rest => i.shift :: shiftList rest

/-- An operand that may be left out, shifted. -/
def shiftOption : Option Instruction → Option Instruction
  | none => none
  | some i => some i.shift
end

/-- What a field holds, with its instructions shifted. -/
def Field.shift : (field : Field) → field.Value → field.Value
  | .operand => Instruction.shift logical storage
  | .operandsUntil _ => shiftList logical storage
  | .byte | .word | .int | .single | .ansiString | .wideString | .name | .object | .labels
  | .optionalTerminator => id

@[simp] theorem Instruction.shift_opcode (i : Instruction) :
    (i.shift logical storage).opcode = i.opcode := by
  cases i; rfl

theorem shiftList_eq_map (operands : List Instruction) :
    shiftList logical storage operands = operands.map (·.shift logical storage) := by
  induction operands with
  | nil => rfl
  | cons i rest ih => rw [shiftList, ih, List.map_cons]

end

/-!
### Layouts

Layouts never look at an instruction that they read, so to shift the instructions that go in is to shift the value
that comes out.
-/

/-- Given shifted fields the first layout ends in a value that is `f` of what the second one ends in. -/
inductive Layout.Commutes (logical storage : Nat) {α β : Type} (f : β → α) :
    Layout α → Layout β → Prop where
  | done {value : α} {value' : β} (hvalue : value = f value') :
      Commutes logical storage f (.done value) (.done value')
  | read {field : Field} {next : field.Value → Layout α} {next' : field.Value → Layout β}
      (hnext : ∀ value, Commutes logical storage f (next (field.shift logical storage value)) (next' value)) :
      Commutes logical storage f (.read field next) (.read field next')

/-- No layout looks into an operand. The only values that decide what follows are the target of a case and the code of
    a cast, and those are not shifted. -/
theorem commutes_layout (logical storage : Nat) (format : Format) (opcode : Opcode) :
    Layout.Commutes logical storage (shiftToken logical storage) (layout format opcode)
      (layout format opcode) := by
  cases opcode
  case caseLabel =>
    refine .read fun target => ?_
    change Layout.Commutes _ _ _ (Layout.bind (Layout.given (target != defaultCaseTarget) .operand) _)
      (Layout.bind (Layout.given (target != defaultCaseTarget) .operand) _)
    unfold Layout.given
    split
    · exact .read fun value => .done rfl
    · exact .done rfl
  case primitiveCast =>
    refine .read fun cast => ?_
    change Layout.Commutes _ _ _
      (Layout.bind (Layout.given (cast == objectToInterface && format.has .thirdLayout) .object) _)
      (Layout.bind (Layout.given (cast == objectToInterface && format.has .thirdLayout) .object) _)
    unfold Layout.given
    split
    · exact .read fun interface => .read fun expr => .done rfl
    · exact .read fun expr => .done rfl
  all_goals simp only [layout, Layout.given, Layout.call]
  all_goals repeat' split
  all_goals repeat' (refine .read fun _ => ?_)
  all_goals exact .done rfl

/-!
### Readers
-/

variable {α β γ δ : Type}

/-- The units up to a zero unit do not depend on what follows it. -/
theorem splitUnits_append (bytes : List UInt8) : ∀ {units left},
    splitUnits bytes = (units, some left) →
      ∃ read, bytes = read ++ left ∧ read.length = 2 * (units.length + 1) ∧
        ∀ tail, splitUnits (read ++ tail) = (units, some tail) := by
  fun_induction splitUnits bytes with
  | case1 low high rest unit =>
      rename_i hzero
      rintro units left ⟨⟩
      exact ⟨[low, high], rfl, rfl, fun tail => if_pos hzero⟩
  | case2 low high rest unit hzero units' left' hsplit =>
      rename_i ih
      rintro units left ⟨⟩
      obtain ⟨read, rfl, hlength, htail⟩ := ih hsplit
      refine ⟨low :: high :: read, rfl, by simp [hlength]; omega, fun tail => ?_⟩
      rw [List.cons_append, List.cons_append, splitUnits, htail]
      exact if_neg hzero
  | case3 bytes hshort =>
      rintro units left ⟨⟩

/-- Where the first reader succeeds, the second one makes the same of the same bytes, wherever they stand and whatever
    follows them. -/
def Reader.Echoes (reader reader' : Reader α) : Prop :=
  ∀ input next value, reader input = .ok value next →
    ∃ read, input.rest = read ++ next.rest ∧ next.offset = input.offset + read.length ∧
      Recovers reader' read value

namespace Reader

theorem echoes_pure (value : α) : Echoes (pure value) (pure value) := by
  intro input next result h
  cases h
  exact ⟨[], rfl, rfl, Recovers.pure value⟩

theorem Echoes.bind {reader reader' : Reader α} {rest rest' : α → Reader β}
    (hreader : Echoes reader reader') (hrest : ∀ value, Echoes (rest value) (rest' value)) :
    Echoes (reader >>= rest) (reader' >>= rest') := by
  intro input next result h
  obtain ⟨value, middle, hfirst, hsecond⟩ := bind_eq_ok h
  obtain ⟨first, hinput, hoffset, hrecovers⟩ := hreader _ _ _ hfirst
  obtain ⟨second, hmiddle, hoffset', hrecovers'⟩ := hrest value _ _ _ hsecond
  refine ⟨first ++ second, ?_, ?_, hrecovers.bind hrecovers'⟩
  · rw [hinput, hmiddle, List.append_assoc]
  · rw [hoffset', hoffset, List.length_append, Nat.add_assoc]

theorem echoes_take (n : Nat) : Echoes (take n) (take n) := by
  intro input next value h
  unfold take at h
  cases hsplit : splitExactly n input.rest with
  | none => simp [hsplit] at h
  | some parts =>
      simp only [hsplit, EStateM.Result.ok.injEq] at h
      obtain ⟨rfl, rfl⟩ := h
      obtain ⟨hrest, rfl⟩ := splitExactly_eq_some hsplit
      exact ⟨parts.1, hrest, rfl, recovers_take parts.1⟩

theorem echoes_byte : Echoes byte byte := by
  rintro ⟨offset, rest⟩ next value h
  cases rest with
  | nil => cases h
  | cons byte rest =>
      cases h
      exact ⟨[value], rfl, rfl, recovers_byte value⟩

theorem echoes_word : Echoes word word :=
  (echoes_take 2).bind fun _ => echoes_pure _

theorem echoes_dword : Echoes dword dword :=
  (echoes_take 4).bind fun _ => echoes_pure _

theorem echoes_int : Echoes int int :=
  echoes_dword.bind fun _ => echoes_pure _

theorem echoes_single : Echoes single single :=
  echoes_dword.bind fun _ => echoes_pure _

/-- A failed read reads nothing back. -/
theorem echoes_throw (e e' : DecodeError) : Echoes (throw e : Reader α) (throw e') := by
  intro input next value h
  cases h

/-- The offset at which a compact index starts stands in errors only. -/
theorem echoes_compactTail (start start' left scale : Nat) :
    Echoes (compactTail start left scale) (compactTail start' left scale) := by
  induction left generalizing scale with
  | zero => exact echoes_throw _ _
  | succ left ih =>
      refine echoes_byte.bind fun next => ?_
      split
      · exact (ih _).bind fun _ => echoes_pure _
      · exact echoes_pure _

theorem echoes_compactMagnitude (start start' : Nat) (first : UInt8) :
    Echoes (compactMagnitude start first) (compactMagnitude start' first) := by
  unfold compactMagnitude
  split
  · exact (echoes_compactTail _ _ _ _).bind fun _ => echoes_pure _
  · exact echoes_pure _

theorem echoes_compactValue (start start' : Nat) (first : UInt8) (magnitude : Nat) :
    Echoes (compactValue start first magnitude) (compactValue start' first magnitude) := by
  unfold compactValue
  split
  · exact echoes_throw _ _
  · split <;> exact echoes_pure _

theorem echoes_compactIndex : Echoes compactIndex compactIndex := by
  intro input next value h
  have hbody (start' : Nat) := echoes_byte.bind fun first =>
    (echoes_compactMagnitude input.offset start' first).bind fun magnitude =>
      echoes_compactValue input.offset start' first magnitude
  obtain ⟨read, hrest, hoffset, -⟩ := hbody 0 _ _ _ h
  refine ⟨read, hrest, hoffset, fun offset rest => ?_⟩
  obtain ⟨read', hrest', -, hrecovers⟩ := hbody offset _ _ _ h
  obtain rfl : read = read' := List.append_cancel_right (hrest.symm.trans hrest')
  exact hrecovers offset rest

theorem echoes_ansiString : Echoes ansiString ansiString := by
  intro input next value h
  have hsplit := List.takeWhile_append_dropWhile (p := (· != (0 : UInt8))) (l := input.rest)
  unfold ansiString at h
  rw [List.span_eq_takeWhile_dropWhile] at h
  set text := input.rest.takeWhile (· != 0) with htext
  have hnonzero : ∀ b ∈ text, (b != 0) = true := by
    intro b hb
    exact List.all_eq_true.1 List.all_takeWhile b hb
  cases hdrop : input.rest.dropWhile (· != 0) with
  | nil => simp [hdrop] at h
  | cons zero rest =>
      have hzero : ¬(zero != 0) = true := by
        have := List.head?_dropWhile_not (· != 0) input.rest
        rw [hdrop] at this
        simpa using this
      simp only [hdrop, EStateM.Result.ok.injEq] at h
      obtain ⟨rfl, rfl⟩ := h
      rw [hdrop] at hsplit
      refine ⟨text ++ [zero], by simp [← hsplit], by simp [Nat.add_assoc], fun offset tail => ?_⟩
      have hspan : (text ++ [zero] ++ tail).span (· != 0) = (text, zero :: tail) := by
        rw [List.append_assoc, List.span_eq_takeWhile_dropWhile,
          List.takeWhile_append_of_pos hnonzero, List.dropWhile_append_of_pos hnonzero]
        simp [hzero]
      unfold ansiString
      rw [hspan]
      simp [Nat.add_assoc]

theorem echoes_wideString : Echoes wideString wideString := by
  intro input next value h
  unfold wideString at h
  rcases hsplit : splitUnits input.rest with ⟨units, left⟩
  rw [hsplit] at h
  cases left with
  | none => cases h
  | some left =>
      cases h
      obtain ⟨read, hrest, hlength, htail⟩ := splitUnits_append _ hsplit
      refine ⟨read, hrest, by rw [hlength], fun offset tail => ?_⟩
      simp only [wideString, htail, hlength]

end Reader

theorem Decoder.echoes_index (format : Format) : Reader.Echoes (Decoder.index format) (Decoder.index format) := by
  unfold Decoder.index
  split
  · exact Reader.echoes_int
  · exact Reader.echoes_compactIndex

/-!
### Slices
-/

/-- A slice of a blob: how far it starts into the blob in both address spaces, and the storage offset at which it
    ends. -/
structure Slice where
  logical : Nat
  storage : Nat
  stop : Nat

namespace Slice

/-- A place of the blob and the place of the slice that shows the same bytes, up to the end of the slice. -/
structure Shows (slice : Slice) (place inner : Place) : Prop where
  position : place.position = inner.position + slice.logical
  offset : place.input.offset = inner.input.offset + slice.storage
  rest : inner.input.rest = place.input.rest.take (slice.stop - place.input.offset)

/-- Where the first decoder succeeds within the slice, the second one succeeds there as well, and the values
    correspond by `f`. -/
def Mirrors (slice : Slice) (f : β → α) (m : Decoder α) (m' : Decoder β) : Prop :=
  ∀ place next value inner, m place = .ok value next → slice.Shows place inner →
    next.input.offset ≤ slice.stop →
    ∃ value' next', m' inner = .ok value' next' ∧ value = f value' ∧ slice.Shows next next'

variable {slice : Slice}

/-- A slice that shows more than nothing shows the next byte. -/
theorem Shows.head? {place inner : Place} (h : slice.Shows place inner) (hoffset : place.input.offset < slice.stop) :
    inner.input.rest.head? = place.input.rest.head? := by
  rw [h.rest, List.head?_take, if_neg (by omega)]

/-- A slice shows the next byte or none. -/
theorem Shows.head?_eq_or {place inner : Place} (h : slice.Shows place inner) :
    inner.input.rest.head? = place.input.rest.head? ∨ inner.input.rest.head? = none := by
  rw [h.rest, List.head?_take]
  split
  · exact .inr rfl
  · exact .inl rfl

/-- Bytes that are read in the blob are gone in the slice. -/
theorem Shows.length_lt {place inner next next' : Place} (h : slice.Shows place inner) (h' : slice.Shows next next')
    (hreach : place.Reaches next) (hoffset : place.input.offset < next.input.offset)
    (hstop : next.input.offset ≤ slice.stop) : next'.input.rest.length < inner.input.rest.length := by
  have hlength := hreach.input.offset_add_length
  rw [h.rest, h'.rest, List.length_take, List.length_take]
  omega

namespace Mirrors

theorem pure (value : α) {f : β → α} {value' : β} (hvalue : value = f value') :
    slice.Mirrors f (Pure.pure value) (Pure.pure value') := by
  intro place next result inner h hshows _
  cases h
  exact ⟨value', inner, rfl, hvalue, hshows⟩

/-- The second part of a sequence stops within the slice, so the first one does. -/
theorem bind {f : β → α} {g : δ → γ} {m : Decoder α} {m' : Decoder β} {rest : α → Decoder γ}
    {rest' : β → Decoder δ} (hm : slice.Mirrors f m m') (hforward : ∀ value, Moves Place.Reaches (rest value))
    (hrest : ∀ value', slice.Mirrors g (rest (f value')) (rest' value')) :
    slice.Mirrors g (m >>= rest) (m' >>= rest') := by
  intro place next result inner h hshows hstop
  obtain ⟨value, middle, hfirst, hsecond⟩ := bind_eq_ok h
  have hreach := (hforward value).of_ok hsecond
  obtain ⟨value', middle', hfirst', rfl, hmiddle⟩ :=
    hm _ _ _ _ hfirst hshows (Nat.le_trans hreach.input.offset_le hstop)
  obtain ⟨result', next', hsecond', hresult, hnext⟩ := hrest value' _ _ _ _ hsecond hmiddle hstop
  exact ⟨result', next', bind_of_ok hfirst' hsecond', hresult, hnext⟩

/-- A read of bytes alone is mirrored if it is the same for the same bytes. -/
theorem lift {reader : Reader α} (h : reader.Echoes reader) (width : α → Nat) :
    slice.Mirrors id (Decoder.lift reader width) (Decoder.lift reader width) := by
  intro place next value inner hread hshows hstop
  unfold Decoder.lift at hread
  cases hreader : reader place.input with
  | error e input => simp [hreader] at hread
  | ok result input =>
      simp only [hreader, EStateM.Result.ok.injEq] at hread
      obtain ⟨rfl, rfl⟩ := hread
      obtain ⟨read, hrest, hoffset, hrecovers⟩ := h _ _ _ hreader
      have hlength : read.length ≤ slice.stop - place.input.offset := by
        simp only at hstop
        omega
      have hinner : inner.input.rest = read ++ input.rest.take (slice.stop - input.offset) := by
        rw [hshows.rest, hrest, List.take_append, List.take_of_length_le hlength, hoffset, Nat.sub_add_eq]
      have hread' := hrecovers inner.input.offset (input.rest.take (slice.stop - input.offset))
      rw [← hinner] at hread'
      refine ⟨result, ⟨inner.position + width result, inner.input.offset + read.length,
        input.rest.take (slice.stop - input.offset)⟩, ?_, rfl, ⟨?_, ?_, rfl⟩⟩
      · unfold Decoder.lift
        rw [hread']
      · have := hshows.position
        simp only
        omega
      · have := hshows.offset
        simp only
        omega

theorem byte : slice.Mirrors id (Decoder.plain Reader.byte 1) (Decoder.plain Reader.byte 1) :=
  lift Reader.echoes_byte _

theorem code : slice.Mirrors id Decoder.code Decoder.code := by
  have hforward := Place.Reaches.primitiveMoves ⟨0, 0⟩
  refine byte.bind (fun first => ?_) fun first => ?_
  · split
    · exact hforward.bind hforward.byte fun _ => hforward.pure _
    · exact hforward.pure _
  · simp only [id_eq]
    split
    · exact byte.bind (fun _ => hforward.pure _) fun _ => pure _ rfl
    · exact pure _ rfl

theorem name (format : Format) : slice.Mirrors id (Decoder.name format) (Decoder.name format) := by
  refine lift ((Decoder.echoes_index format).bind fun index => ?_) _
  split
  · exact Reader.echoes_int.bind fun _ => Reader.echoes_pure _
  · exact (Reader.echoes_pure _).bind fun _ => Reader.echoes_pure _

theorem object (format : Format) :
    slice.Mirrors id (Decoder.object format) (Decoder.object format) :=
  lift ((Decoder.echoes_index format).bind fun _ => Reader.echoes_pure _) _

/-- Steps that give something take bytes, so the bound that suffices for what is left of the slice suffices for the
    steps that are made within it. -/
theorem collectWithin {f : β → α} {step : Decoder (Option α)} {step' : Decoder (Option β)}
    (hstep : slice.Mirrors (Option.map f) step step') (hforward : Moves Place.Reaches step)
    (hadvance : ∀ {place next value}, step place = .ok (some value) next →
      place.input.offset < next.input.offset) (bound : Nat) :
    ∀ {place next : Place} {values : List α} {inner : Place} {bound' : Nat},
      Decoder.collectWithin step bound place = .ok values next → slice.Shows place inner →
      next.input.offset ≤ slice.stop → inner.input.rest.length < bound' →
      ∃ values' next', Decoder.collectWithin step' bound' inner = .ok values' next' ∧
        values = values'.map f ∧ slice.Shows next next' := by
  have hR := Place.Reaches.primitiveMoves ⟨0, 0⟩
  induction bound with
  | zero => exact fun h => nomatch h
  | succ bound ih =>
      intro place next values inner bound' h hshows hstop hbound
      obtain ⟨bound', rfl⟩ : ∃ n, bound' = n + 1 := ⟨bound' - 1, by omega⟩
      obtain ⟨given, middle, hgiven, hrest⟩ := bind_eq_ok h
      have hreach := hforward.of_ok hgiven
      have hmiddleStop : middle.input.offset ≤ slice.stop := by
        refine Nat.le_trans (Input.Reaches.offset_le ?_) hstop
        cases given with
        | none =>
            cases hrest
            exact (hR.refl _).input
        | some value =>
            obtain ⟨values, last, hvalues, hlast⟩ := bind_eq_ok hrest
            cases hlast
            exact ((hR.collectWithin hforward bound).of_ok hvalues).input
      obtain ⟨given', middle', hgiven', hvalue, hmiddle⟩ := hstep _ _ _ _ hgiven hshows hmiddleStop
      cases given' with
      | none =>
          subst hvalue
          cases hrest
          exact ⟨[], middle', bind_of_ok hgiven' rfl, rfl, hmiddle⟩
      | some value' =>
          subst hvalue
          obtain ⟨values, last, hvalues, hlast⟩ := bind_eq_ok hrest
          cases hlast
          have hshorter := hshows.length_lt hmiddle hreach (hadvance hgiven) hmiddleStop
          have hleft : middle'.input.rest.length < bound' := by omega
          obtain ⟨values', next', hvalues', rfl, hnext⟩ := ih hvalues hmiddle hstop hleft
          exact ⟨value' :: values', next', bind_of_ok hgiven' (bind_of_ok hvalues' rfl), rfl, hnext⟩

theorem collect {f : β → α} {step : Decoder (Option α)} {step' : Decoder (Option β)}
    (hstep : slice.Mirrors (Option.map f) step step') (hforward : Moves Place.Reaches step)
    (hadvance : ∀ {place next value}, step place = .ok (some value) next →
      place.input.offset < next.input.offset) :
    slice.Mirrors (List.map f) (Decoder.collect step) (Decoder.collect step') :=
  fun _ _ _ _ h hshows hstop =>
    collectWithin hstep hforward hadvance _ h hshows hstop (Nat.lt_succ_self _)

end Mirrors

/-- Four bytes are more than none. -/
theorem dword_advance {place next : Place} {value : UInt32}
    (h : Decoder.plain Reader.dword 4 place = .ok value next) :
    place.input.offset < next.input.offset := by
  unfold Decoder.plain Decoder.lift at h
  cases hread : Reader.dword place.input with
  | error e input => simp [hread] at h
  | ok result input =>
      simp only [hread, EStateM.Result.ok.injEq] at h
      obtain ⟨rfl, rfl⟩ := h
      obtain ⟨bytes, middle, htake, hrest⟩ := bind_eq_ok hread
      cases hrest
      unfold Reader.take at htake
      cases hsplit : splitExactly 4 place.input.rest with
      | none => simp [hsplit] at htake
      | some parts =>
          simp only [hsplit, EStateM.Result.ok.injEq] at htake
          rw [← htake.2]
          exact Nat.lt_add_of_pos_right (by decide)

/-- Nested instructions are read alike in blob and slice, and take at least one byte each. -/
structure MirrorsOperands (slice : Slice) (instruction instruction' : Decoder Instruction) : Prop where
  forward : Moves Place.Reaches instruction
  advance : ∀ {place next i}, instruction place = .ok i next → place.input.offset < next.input.offset
  mirrors : slice.Mirrors (Instruction.shift slice.logical slice.storage) instruction instruction'

/-- What the next byte says may be asked before an instruction is read: either that instruction stands in the slice,
    and so does the byte, or nothing is read. -/
theorem Mirrors.peek {dialect : Dialect} {f : β → α} (wanted : Option Opcode → Prop)
    [DecidablePred wanted] {m other : Decoder α} {m' other' : Decoder β} (hnone : ¬wanted none)
    (hm : slice.Mirrors f m m') (hother : slice.Mirrors f other other')
    (hadvance : ∀ {place next value}, m place = .ok value next → place.input.offset < next.input.offset) :
    slice.Mirrors f (do if wanted (← Decoder.peek dialect) then m else other)
      (do if wanted (← Decoder.peek dialect) then m' else other') := by
  intro place next value inner h hshows hstop
  set look : Place → Option Opcode := fun place =>
    place.input.rest.head?.map fun first => dialect.table.resolve dialect.natives ⟨first, none⟩ with hlook
  change (if wanted (look place) then m else other) place = _ at h
  change ∃ value' next', (if wanted (look inner) then m' else other') inner = _ ∧ _
  by_cases hwanted : wanted (look place)
  · rw [if_pos hwanted] at h
    have hsame : look inner = look place := by
      rw [hlook]
      simp only [hshows.head? (Nat.lt_of_lt_of_le (hadvance h) hstop)]
    rw [hsame, if_pos hwanted]
    exact hm _ _ _ _ h hshows hstop
  · rw [if_neg hwanted] at h
    have hinner : ¬wanted (look inner) := by
      rcases hshows.head?_eq_or with hsame | hend
      · rw [hlook] at hwanted ⊢
        simpa only [hsame] using hwanted
      · rw [hlook]
        simpa only [hend, Option.map_none] using hnone
    rw [if_neg hinner]
    exact hother _ _ _ _ h hshows hstop

namespace MirrorsOperands

variable {dialect : Dialect} {instruction instruction' : Decoder Instruction}

/-- Reads a hidden instruction, if one comes next. -/
def hiddenStep (dialect : Dialect) (instruction : Decoder Instruction) : Decoder (Option Unit) := do
  if (← Decoder.peek dialect).any (·.isHidden) then
    let _ ← instruction
    return some ()
  else
    return none

/-- Before an operand hidden instructions are read as long as there are any. -/
theorem operand_eq (dialect : Dialect) (instruction : Decoder Instruction) :
    Decoder.operand dialect instruction =
      (do let _ ← Decoder.collect (hiddenStep dialect instruction); instruction) :=
  rfl

theorem hiddenStep_forward (h : slice.MirrorsOperands instruction instruction') (dialect : Dialect) :
    Moves Place.Reaches (hiddenStep dialect instruction) := by
  have hR := Place.Reaches.primitiveMoves dialect.format
  apply hR.bind hR.peek
  intro next
  split
  · exact hR.bind h.forward fun _ => hR.pure _
  · exact hR.pure _

theorem hiddenStep_advance (h : slice.MirrorsOperands instruction instruction') {place next : Place}
    {value : Unit} (hstep : hiddenStep dialect instruction place = .ok (some value) next) :
    place.input.offset < next.input.offset := by
  obtain ⟨head, middle, hpeek, hrest⟩ := bind_eq_ok hstep
  cases hpeek
  split at hrest
  · obtain ⟨i, middle, hi, hlast⟩ := bind_eq_ok hrest
    cases hlast
    exact h.advance hi
  · cases hrest

theorem hiddenStep_mirrors (h : slice.MirrorsOperands instruction instruction') :
    slice.Mirrors (Option.map id) (hiddenStep dialect instruction) (hiddenStep dialect instruction') := by
  have hR := Place.Reaches.primitiveMoves dialect.format
  apply Mirrors.peek (fun next => next.any (·.isHidden) = true)
  · exact Bool.false_ne_true
  · exact h.mirrors.bind (fun _ => hR.pure _) fun _ => .pure _ rfl
  · exact .pure _ rfl
  · intro place next value hread
    obtain ⟨i, middle, hi, hrest⟩ := bind_eq_ok hread
    cases hrest
    exact h.advance hi

theorem operand (h : slice.MirrorsOperands instruction instruction') :
    slice.Mirrors (Instruction.shift slice.logical slice.storage)
      (Decoder.operand dialect instruction) (Decoder.operand dialect instruction') := by
  rw [operand_eq, operand_eq]
  have hhidden := h.hiddenStep_mirrors.collect (h.hiddenStep_forward dialect) h.hiddenStep_advance
  exact hhidden.bind (fun _ => h.forward) fun _ => h.mirrors

theorem operand_advance (h : slice.MirrorsOperands instruction instruction') {place next : Place}
    {i : Instruction} (hread : Decoder.operand dialect instruction place = .ok i next) :
    place.input.offset < next.input.offset := by
  rw [operand_eq] at hread
  obtain ⟨hidden, middle, hhidden, hi⟩ := bind_eq_ok hread
  have hreach := ((Place.Reaches.primitiveMoves dialect.format).collect
    (h.hiddenStep_forward dialect)).of_ok hhidden
  exact Nat.lt_of_le_of_lt hreach.input.offset_le (h.advance hi)

theorem operandsUntil (h : slice.MirrorsOperands instruction instruction') (terminator : Opcode) :
    slice.Mirrors (shiftList slice.logical slice.storage)
      (Decoder.operandsUntil dialect instruction terminator)
      (Decoder.operandsUntil dialect instruction' terminator) := by
  have hR := Place.Reaches.primitiveMoves dialect.format
  rw [funext (shiftList_eq_map slice.logical slice.storage)]
  apply Mirrors.collect
  · apply h.operand.bind (fun _ => hR.pure _)
    intro next
    apply Mirrors.pure
    rw [Instruction.shift_opcode]
    split <;> rfl
  · exact hR.bind (hR.operand h.forward) fun _ => hR.pure _
  · intro place next value hstep
    obtain ⟨i, middle, hi, hrest⟩ := bind_eq_ok hstep
    obtain ⟨-, rfl⟩ := EStateM.Result.ok.inj hrest
    exact h.operand_advance hi

theorem optionalTerminator (h : slice.MirrorsOperands instruction instruction') :
    slice.Mirrors id (Decoder.optionalTerminator dialect instruction)
      (Decoder.optionalTerminator dialect instruction') := by
  have hR := Place.Reaches.primitiveMoves dialect.format
  apply Mirrors.peek (fun next => next = some .endFunctionParms)
  · exact fun hnone => nomatch hnone
  · exact h.mirrors.bind (fun _ => hR.pure _) fun _ => .pure _ rfl
  · exact .pure _ rfl
  · intro place next value hread
    obtain ⟨i, middle, hi, hrest⟩ := bind_eq_ok hread
    cases hrest
    exact h.advance hi

theorem labels : slice.Mirrors id (Decoder.labels dialect) (Decoder.labels dialect) := by
  have hR := Place.Reaches.primitiveMoves dialect.format
  rw [← List.map_id_fun]
  apply Mirrors.collect
  · apply (Mirrors.name dialect.format).bind
    · exact fun _ => hR.bind hR.dword fun _ => hR.pure _
    · intro name
      apply (Mirrors.lift Reader.echoes_dword _).bind (fun _ => hR.pure _)
      intro position
      apply Mirrors.pure
      rw [Option.map_id, id_eq]
      rfl
  · exact hR.bind hR.name fun _ => hR.bind hR.dword fun _ => hR.pure _
  · intro place next value hstep
    obtain ⟨name, middle, hname, hrest⟩ := bind_eq_ok hstep
    have hreach := hR.name.of_ok hname
    obtain ⟨position, last, hposition, hlast⟩ := bind_eq_ok hrest
    obtain ⟨-, rfl⟩ := EStateM.Result.ok.inj hlast
    exact Nat.lt_of_le_of_lt hreach.input.offset_le (dword_advance hposition)

/-- Every field is read alike in blob and slice. -/
theorem field (h : slice.MirrorsOperands instruction instruction') (field : Field) :
    slice.Mirrors (field.shift slice.logical slice.storage) (field.read dialect instruction)
      (field.read dialect instruction') := by
  have hR := Place.Reaches.primitiveMoves dialect.format
  cases field with
  | byte => exact .byte
  | word => exact .lift Reader.echoes_word _
  | int => exact .lift Reader.echoes_int _
  | single => exact .lift Reader.echoes_single _
  | ansiString =>
      exact (Mirrors.lift Reader.echoes_ansiString _).bind (fun _ => hR.pure _) fun _ => .pure _ rfl
  | wideString =>
      exact (Mirrors.lift Reader.echoes_wideString _).bind (fun _ => hR.pure _) fun _ => .pure _ rfl
  | name => exact .name dialect.format
  | object => exact .object dialect.format
  | operand => exact h.operand
  | operandsUntil terminator => exact h.operandsUntil terminator
  | labels => exact labels
  | optionalTerminator => exact h.optionalTerminator

theorem layout {f : β → α} (h : slice.MirrorsOperands instruction instruction') {layout : Layout α}
    {layout' : Layout β} (hlayout : layout.Commutes slice.logical slice.storage f layout') :
    slice.Mirrors f (layout.decode dialect instruction) (layout'.decode dialect instruction') := by
  have hR := Place.Reaches.primitiveMoves dialect.format
  induction hlayout with
  | done hvalue => exact .pure _ hvalue
  | read hnext ih => exact (h.field _).bind (fun value => hR.layout h.forward _) ih

end MirrorsOperands

end Slice

/-- An instruction that stands in a slice is read there as in the blob. The induction is on the levels left in the
    blob; the slice may have more. -/
theorem mirrors_readInstruction (slice : Slice) (dialect : Dialect) (levels : Nat) :
    ∀ {levels'}, levels ≤ levels' → slice.Mirrors (Instruction.shift slice.logical slice.storage)
      (readInstruction dialect levels) (readInstruction dialect levels') := by
  have hR := Place.Reaches.primitiveMoves dialect.format
  induction levels with
  | zero =>
      intro levels' _ place next i inner h
      cases h
  | succ levels ih =>
      intro levels' hlevels place next i inner h hshows hstop
      obtain ⟨more, rfl⟩ : ∃ n, levels' = n + 1 := ⟨levels' - 1, by omega⟩
      have hoperands : slice.MirrorsOperands (readInstruction dialect levels) (readInstruction dialect more) := {
        forward := reaches_readInstruction dialect levels
        advance := by
          intro place next i hi
          have hspans := readInstruction_spans hi
          have hstart := hspans.storagePosition
          have hend := hspans.storageEnd
          have hsize := hspans.storageSize_pos
          rw [Instruction.storageEnd] at hend
          omega
        mirrors := ih (by omega) }
      obtain ⟨start, place', hget, h⟩ := bind_eq_ok h
      cases hget
      obtain ⟨code, afterCode, hcode, h⟩ := bind_eq_ok h
      obtain ⟨token, afterToken, htoken, h⟩ := bind_eq_ok h
      cases h
      have hreach := (hR.layout (reaches_readInstruction dialect levels) _).of_ok htoken
      obtain ⟨_, afterCode', hcode', rfl, hcodeShows⟩ :=
        Slice.Mirrors.code _ _ _ _ hcode hshows (Nat.le_trans hreach.input.offset_le hstop)
      obtain ⟨token', next', htoken', rfl, hnext⟩ :=
        hoperands.layout (commutes_layout _ _ _ _) _ _ _ _ htoken hcodeShows hstop
      refine ⟨_, next', bind_of_ok rfl (bind_of_ok hcode' (bind_of_ok htoken' rfl)), ?_, hnext⟩
      -- Both ends of the instruction have moved by the same distance, so its sizes are the same.
      have hsize : next.position - place.position = next'.position - inner.position := by
        rw [hshows.position, hnext.position, Nat.add_sub_add_right]
      have hstorage : next.input.offset - place.input.offset =
          next'.input.offset - inner.input.offset := by
        rw [hshows.offset, hnext.offset, Nat.add_sub_add_right]
      rw [Instruction.shift, ← hsize, ← hstorage, ← hshows.position, ← hshows.offset]

/-- The bytes of an instruction, taken out of the blob and read from the start with all levels left, are read to their
    end and give the instruction again, with its addresses counted from its own start. -/
theorem readInstruction_slice (dialect : Dialect) (bytes : List UInt8) (depth position offset : Nat)
    {i : Instruction} {next : Place}
    (h : readInstruction dialect (maxNesting - depth) ⟨position, offset, bytes.drop offset⟩ = .ok i next) :
    (i.position = position ∧ i.storagePosition = offset ∧
        next = ⟨i.endPosition, i.storageEnd, bytes.drop i.storageEnd⟩) ∧
      ∃ j, readInstruction dialect maxNesting (.start (bytes.extract i.storagePosition i.storageEnd)) =
          .ok j ⟨i.size, i.storageSize, []⟩ ∧
        i = j.shift i.position i.storagePosition := by
  have hspans := readInstruction_spans h
  obtain ⟨rfl, rfl⟩ : i.position = position ∧ i.storagePosition = offset :=
    ⟨hspans.position, hspans.storagePosition⟩
  have hnext : next = ⟨i.endPosition, i.storageEnd, bytes.drop i.storageEnd⟩ := by
    obtain ⟨read, hrest, hoffset⟩ := hspans.reaches.input
    simp only at hrest hoffset
    have hleft : next.input.rest = bytes.drop i.storageEnd := by
      rw [hspans.storageEnd, hoffset, ← List.drop_drop, hrest, List.drop_left]
    rw [← hleft, hspans.endPosition, hspans.storageEnd]
  subst hnext
  set slice : Slice := ⟨i.position, i.storagePosition, i.storageEnd⟩ with hslice
  have hshows : slice.Shows ⟨i.position, i.storagePosition, bytes.drop i.storagePosition⟩
      (.start (bytes.extract i.storagePosition i.storageEnd)) := by
    constructor
    · exact (Nat.zero_add _).symm
    · exact (Nat.zero_add _).symm
    · exact List.extract_eq_take_drop
  obtain ⟨j, next', hj, hshift, hnext'⟩ :=
    mirrors_readInstruction slice dialect _ (Nat.sub_le maxNesting depth) _ _ _ _ h hshows (Nat.le_refl _)
  have hplace : next' = ⟨i.size, i.storageSize, []⟩ := by
    obtain ⟨position, offset, rest⟩ := next'
    obtain ⟨hposition, hoffset, hrest⟩ := hnext'
    simp only [hslice, Instruction.endPosition, Instruction.storageEnd, Nat.sub_self, List.take_zero]
      at hposition hoffset hrest
    rw [hrest, show position = i.size by omega, show offset = i.storageSize by omega]
  constructor
  · exact ⟨rfl, rfl, rfl⟩
  · exact ⟨j, hplace ▸ hj, hshift⟩

/-- A dialect in which comparisons of delegates may leave their terminator out. -/
def delegateDialect : Dialect := ⟨.ofFormat ⟨600, 0⟩, .empty, fun _ => none⟩

/-- A comparison without terminator, read behind one byte; what follows it is looked at and left alone. -/
def bareComparison : Instruction :=
  ⟨⟨0x3B, none⟩, .delegateEq, 9, 3, 1, 3, .delegateCmp
    ⟨⟨0x17, none⟩, .selfObject, 10, 1, 2, 1, .noOperands⟩
    ⟨⟨0x17, none⟩, .selfObject, 11, 1, 3, 1, .noOperands⟩⟩

theorem readInstruction_slice_bareComparison :
    readInstruction delegateDialect (maxNesting - 3)
        ⟨9, 1, List.drop 1 [0x26, 0x3B, 0x17, 0x17, 0x26]⟩ = .ok bareComparison ⟨12, 4, [0x26]⟩ ∧
      ∃ j, readInstruction delegateDialect maxNesting (.start [0x3B, 0x17, 0x17]) =
          .ok j ⟨3, 3, []⟩ ∧ bareComparison = j.shift 9 1 := by
  have hread : readInstruction delegateDialect (maxNesting - 3)
      ⟨9, 1, List.drop 1 [0x26, 0x3B, 0x17, 0x17, 0x26]⟩ = .ok bareComparison ⟨12, 4, [0x26]⟩ := rfl
  exact ⟨hread, (readInstruction_slice delegateDialect _ 3 9 1 hread).2⟩

end ScriptBytecode
