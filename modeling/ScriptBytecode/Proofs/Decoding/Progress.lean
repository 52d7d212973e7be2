/-
Module: ScriptBytecode.Proofs.Decoding.Progress
Purpose: Reading goes forward. A read takes a first part of the bytes that are left and moves the storage offset by as
  many, and it never moves the logical position back; an instruction takes at least one unit of both address spaces,
  and its addresses are the places at which its read starts and stops.
Main exports: Input.Reaches, Place.Reaches, reaches_readInstruction, readInstruction_spans
-/
import Mathlib.Data.List.TakeDrop
import ScriptBytecode.Proofs.Decoding.Movement

namespace ScriptBytecode

variable {α : Type}

/-- A later point of the same blob. -/
def Input.Reaches (input next : Input) : Prop :=
  ∃ read, input.rest = read ++ next.rest ∧ next.offset = input.offset + read.length

/-- A later place of the same blob; the logical position has not gone back. -/
structure Place.Reaches (place next : Place) : Prop where
  input : place.input.Reaches next.input
  position : place.position ≤ next.position

namespace Input.Reaches

theorem preorderly : Preorderly Input.Reaches where
  refl _ := ⟨[], rfl, rfl⟩
  trans := by
    rintro a b c ⟨first, hfirst, hoffset⟩ ⟨second, hsecond, hoffset'⟩
    refine ⟨first ++ second, ?_, ?_⟩
    · rw [hfirst, hsecond, List.append_assoc]
    · rw [hoffset', hoffset, List.length_append, Nat.add_assoc]

theorem offset_le {input next : Input} (h : input.Reaches next) : input.offset ≤ next.offset := by
  obtain ⟨read, -, hoffset⟩ := h
  omega

/-- Offset and bytes left add up to the same number at every point of a blob. -/
theorem offset_add_length {input next : Input} (h : input.Reaches next) :
    next.offset + next.rest.length = input.offset + input.rest.length := by
  obtain ⟨read, hrest, hoffset⟩ := h
  rw [hrest, hoffset, List.length_append, Nat.add_assoc]

end Input.Reaches

theorem Place.Reaches.preorderly : Preorderly Place.Reaches where
  refl place := ⟨Input.Reaches.preorderly.refl place.input, Nat.le_refl _⟩
  trans h h' := ⟨Input.Reaches.preorderly.trans h.input h'.input, Nat.le_trans h.position h'.position⟩

/-!
### Readers
-/

theorem splitExactly_eq_some {n : Nat} {xs taken left : List α}
    (h : splitExactly n xs = some (taken, left)) : xs = taken ++ left ∧ taken.length = n := by
  induction n generalizing xs taken with
  | zero =>
      simp only [splitExactly, Option.some.injEq, Prod.mk.injEq] at h
      obtain ⟨rfl, rfl⟩ := h
      exact ⟨rfl, rfl⟩
  | succ n ih =>
      cases xs with
      | nil => simp [splitExactly] at h
      | cons x rest =>
          simp only [splitExactly, Option.map_eq_some_iff, Prod.mk.injEq, Prod.exists] at h
          obtain ⟨taken', left', hsplit, rfl, rfl⟩ := h
          obtain ⟨rfl, hlength⟩ := ih hsplit
          exact ⟨rfl, by simp [hlength]⟩

/-- The units before a zero unit take two bytes each, and so does the zero unit. -/
theorem splitUnits_spec (bytes : List UInt8) :
    match splitUnits bytes with
    | (units, some left) => ∃ read, bytes = read ++ left ∧ read.length = 2 * (units.length + 1)
    | (units, none) => 2 * units.length ≤ bytes.length := by
  fun_induction splitUnits bytes with
  | case1 low high rest unit hzero => exact ⟨[low, high], rfl, rfl⟩
  | case2 low high rest unit hzero units left hsplit ih =>
      rw [hsplit] at ih
      cases left with
      | none =>
          simp only [List.length_cons] at ih ⊢
          omega
      | some left =>
          obtain ⟨read, rfl, hlength⟩ := ih
          exact ⟨low :: high :: read, rfl, by simp [hlength]; omega⟩
  | case3 bytes hshort => simp

namespace Reader

theorem moves_take (n : Nat) : Moves Input.Reaches (take n) := by
  intro input
  unfold stopOf take
  cases h : splitExactly n input.rest with
  | none => exact Input.Reaches.preorderly.refl input
  | some parts =>
      obtain ⟨hrest, hlength⟩ := splitExactly_eq_some h
      exact ⟨parts.1, hrest, by simp [hlength]⟩

theorem moves_byte : Moves Input.Reaches byte := by
  rintro ⟨offset, rest⟩
  cases rest with
  | nil => exact Input.Reaches.preorderly.refl _
  | cons next rest => exact ⟨[next], rfl, rfl⟩

theorem moves_dword : Moves Input.Reaches dword :=
  Input.Reaches.preorderly.bind (moves_take 4) fun _ => Input.Reaches.preorderly.pure _

theorem moves_int : Moves Input.Reaches int :=
  Input.Reaches.preorderly.bind moves_dword fun _ => Input.Reaches.preorderly.pure _

theorem moves_compactTail (start : Nat) :
    ∀ left scale, Moves Input.Reaches (compactTail start left scale)
  | 0, _ => Input.Reaches.preorderly.throw _
  | left + 1, scale => by
      refine Input.Reaches.preorderly.bind moves_byte fun next => ?_
      split
      · exact Input.Reaches.preorderly.bind (moves_compactTail start left _) fun _ =>
          Input.Reaches.preorderly.pure _
      · exact Input.Reaches.preorderly.pure _

theorem moves_compactMagnitude (start : Nat) (first : UInt8) : Moves Input.Reaches (compactMagnitude start first) := by
  unfold compactMagnitude
  split
  · exact Input.Reaches.preorderly.bind (moves_compactTail _ _ _) fun _ => Input.Reaches.preorderly.pure _
  · exact Input.Reaches.preorderly.pure _

theorem moves_compactValue (start : Nat) (first : UInt8) (magnitude : Nat) :
    Moves Input.Reaches (compactValue start first magnitude) := by
  unfold compactValue
  split
  · exact Input.Reaches.preorderly.throw _
  · split <;> exact Input.Reaches.preorderly.pure _

theorem moves_compactIndex : Moves Input.Reaches compactIndex := by
  have hR := Input.Reaches.preorderly
  exact hR.bind hR.get fun input => hR.bind moves_byte fun first =>
    hR.bind (moves_compactMagnitude _ _) fun magnitude => moves_compactValue _ _ _

theorem moves_ansiString : Moves Input.Reaches ansiString := by
  intro input
  have hsplit := List.takeWhile_append_dropWhile (p := (· != (0 : UInt8))) (l := input.rest)
  unfold stopOf ansiString
  rw [List.span_eq_takeWhile_dropWhile]
  cases h : input.rest.dropWhile (· != 0) with
  | nil => exact Input.Reaches.preorderly.refl input
  | cons zero rest =>
      rw [h] at hsplit
      exact ⟨input.rest.takeWhile (· != 0) ++ [zero], by simp [hsplit], by simp [Nat.add_assoc]⟩

theorem moves_wideString : Moves Input.Reaches wideString := by
  intro input
  have hspec := splitUnits_spec input.rest
  unfold stopOf wideString
  rcases hsplit : splitUnits input.rest with ⟨units, left⟩
  rw [hsplit] at hspec
  cases left with
  | none =>
      refine ⟨input.rest.take (2 * units.length), (List.take_append_drop ..).symm, ?_⟩
      simp only at hspec
      simp [Nat.min_eq_left hspec]
  | some left =>
      obtain ⟨read, hrest, hlength⟩ := hspec
      exact ⟨read, hrest, by simp [hlength]⟩

end Reader

/-!
### Decoders
-/

namespace Decoder

/-- A read that goes forward in storage does so in both address spaces. -/
theorem moves_lift {reader : Reader α} (h : Moves Input.Reaches reader) (width : α → Nat) :
    Moves Place.Reaches (lift reader width) := by
  intro place
  have hinput := h place.input
  unfold stopOf lift
  cases hread : reader place.input with
  | ok value input =>
      rw [stopOf_of_ok hread] at hinput
      exact ⟨hinput, Nat.le_add_right _ _⟩
  | error e input =>
      rw [stopOf_of_error hread] at hinput
      exact ⟨hinput, Nat.le_refl _⟩

theorem moves_index (format : Format) : Moves Input.Reaches (index format) := by
  unfold index
  split
  · exact Reader.moves_int
  · exact Reader.moves_compactIndex

theorem moves_name (format : Format) : Moves Place.Reaches (name format) := by
  have hR := Input.Reaches.preorderly
  refine moves_lift (hR.bind (moves_index format) fun _ => ?_) _
  split
  · exact hR.bind Reader.moves_int fun _ => hR.pure _
  · exact hR.bind (hR.pure _) fun _ => hR.pure _

theorem moves_object (format : Format) : Moves Place.Reaches (object format) :=
  moves_lift (Input.Reaches.preorderly.bind (moves_index format) fun _ =>
    Input.Reaches.preorderly.pure _) _

end Decoder

/-- All primitive reads go forward. -/
theorem Place.Reaches.primitiveMoves (format : Format) : PrimitiveMoves Place.Reaches format where
  toPreorderly := Place.Reaches.preorderly
  byte := Decoder.moves_lift Reader.moves_byte _
  word := Decoder.moves_lift (Input.Reaches.preorderly.bind (Reader.moves_take 2) fun _ =>
    Input.Reaches.preorderly.pure _) _
  dword := Decoder.moves_lift Reader.moves_dword _
  int := Decoder.moves_lift Reader.moves_int _
  single := Decoder.moves_lift (Input.Reaches.preorderly.bind Reader.moves_dword fun _ =>
    Input.Reaches.preorderly.pure _) _
  ansiString := Decoder.moves_lift Reader.moves_ansiString _
  wideString := Decoder.moves_lift Reader.moves_wideString _
  name := Decoder.moves_name format
  object := Decoder.moves_object format

/-- Reading an instruction goes forward, also when it fails. -/
theorem reaches_readInstruction (dialect : Dialect) (levels : Nat) :
    Moves Place.Reaches (readInstruction dialect levels) :=
  moves_readInstruction (Place.Reaches.primitiveMoves dialect.format) levels

/-- The code of an instruction takes at least one byte. -/
theorem Decoder.code_ok {place next : Place} {code : Code} (h : Decoder.code place = .ok code next) :
    place.position < next.position ∧ place.input.offset < next.input.offset := by
  have hR := Place.Reaches.primitiveMoves ⟨0, 0⟩
  obtain ⟨first, middle, hbyte, hrest⟩ := bind_eq_ok h
  have hmiddle : middle.position = place.position + 1 ∧
      middle.input.offset = place.input.offset + 1 := by
    obtain ⟨position, offset, rest⟩ := place
    cases rest with
    | nil => cases hbyte
    | cons byte rest =>
        cases hbyte
        exact ⟨rfl, rfl⟩
  have hreach : middle.Reaches next := by
    have hmoves : Moves Place.Reaches (do
        if Code.needsExtension first then
          let next ← Decoder.plain Reader.byte 1
          return ⟨first, some next⟩
        else
          return ⟨first, none⟩ : Decoder Code) := by
      split
      · exact hR.bind hR.byte fun _ => hR.pure _
      · exact hR.pure _
    exact hmoves.of_ok hrest
  have hposition := hreach.position
  have hoffset := hreach.input.offset_le
  omega

/-- An instruction that has been read, and the places between which it stands. -/
structure Instruction.Spans (i : Instruction) (place next : Place) : Prop where
  reaches : place.Reaches next
  position : i.position = place.position
  endPosition : i.endPosition = next.position
  storagePosition : i.storagePosition = place.input.offset
  storageEnd : i.storageEnd = next.input.offset
  size_pos : 1 ≤ i.size
  storageSize_pos : 1 ≤ i.storageSize

/-- The addresses of an instruction are the places at which its read starts and stops, and they differ. -/
theorem readInstruction_spans {dialect : Dialect} {levels : Nat} {place next : Place}
    {i : Instruction} (h : readInstruction dialect levels place = .ok i next) :
    i.Spans place next := by
  have hreach : place.Reaches next := (reaches_readInstruction dialect levels).of_ok h
  cases levels with
  | zero => cases h
  | succ levels =>
      obtain ⟨start, place', hget, h⟩ := bind_eq_ok h
      cases hget
      obtain ⟨code, afterCode, hcode, h⟩ := bind_eq_ok h
      obtain ⟨token, afterToken, htoken, h⟩ := bind_eq_ok h
      cases h
      have hstrict := Decoder.code_ok hcode
      have hlayout := (Place.Reaches.primitiveMoves dialect.format).layout
        (reaches_readInstruction dialect levels)
        (layout dialect.format (dialect.table.resolve dialect.natives code))
      have hrest : afterCode.Reaches next := hlayout.of_ok htoken
      have hposition := hrest.position
      have hoffset := hrest.input.offset_le
      exact {
        reaches := hreach
        position := rfl
        endPosition := by simp only [Instruction.endPosition]; omega
        storagePosition := rfl
        storageEnd := by simp only [Instruction.storageEnd]; omega
        size_pos := by show 1 ≤ next.position - place.position; omega
        storageSize_pos := by show 1 ≤ next.input.offset - place.input.offset; omega }

/-- Instructions take bytes. -/
theorem readInstruction_offset_lt {dialect : Dialect} {levels : Nat} {place next : Place} {i : Instruction}
    (h : readInstruction dialect levels place = .ok i next) :
    place.input.offset < next.input.offset := by
  have hspans := readInstruction_spans h
  rw [← hspans.storagePosition, ← hspans.storageEnd]
  exact Nat.lt_add_of_pos_right hspans.storageSize_pos

theorem readInstruction_advances {dialect : Dialect} {levels : Nat} {place next : Place} {i : Instruction}
    (h : readInstruction dialect levels place = .ok i next) :
    next.input.rest.length < place.input.rest.length := by
  have hlength := (readInstruction_spans h).reaches.input.offset_add_length
  have hoffset := readInstruction_offset_lt h
  omega

theorem rest_ne_nil_of_readInstruction {dialect : Dialect} {levels : Nat} {place next : Place} {i : Instruction}
    (h : readInstruction dialect levels place = .ok i next) : place.input.rest ≠ [] := by
  intro hempty
  have hfewer := readInstruction_advances h
  rw [hempty] at hfewer
  exact Nat.not_lt_zero _ hfewer

end ScriptBytecode
