/-
Module: ScriptBytecode.Proofs.Decoding.Padding
Purpose: Encoded hidden instructions that are woven into a blob. The bytes of the blob keep their order, and in front
  of each of them there may be padding; a place of the blob and the place of the padded blob with the same bytes ahead
  belong together. Reads of bytes are the same in both where they meet no padding, and padding is skipped as hidden
  instructions are.
Main exports: Padding, Padding.weave, Padding.Trails, Padding.Stands, Padding.Replays, Dialect.EncodesHidden, skips_pads
-/
import ScriptBytecode.Proofs.Decoding.Conformance

namespace ScriptBytecode

variable {α β : Type}

/-!
### Weaving
-/

/-- What is inserted into a blob: in front of each storage offset, encoded instructions. -/
abbrev Padding := Nat → List (List UInt8)

namespace Padding

/-- The bytes from `offset` on, each with its padding in front of it. -/
def weave (pads : Padding) : (offset : Nat) → List UInt8 → List UInt8
  | _, [] => []
  | offset, byte :: rest => (pads offset).flatten ++ byte :: pads.weave (offset + 1) rest

/-- Number of bytes that are inserted in front of the offsets below the given one. -/
def widthBefore (pads : Padding) : (offset : Nat) → Nat
  | 0 => 0
  | offset + 1 => pads.widthBefore offset + (pads offset).flatten.length

/-- Nothing is inserted from the first offset on and before the second one. -/
def Clear (pads : Padding) (first last : Nat) : Prop :=
  ∀ offset, first ≤ offset → offset < last → pads offset = []

variable {pads : Padding}

theorem weave_append {offset : Nat} {read : List UInt8} (h : pads.Clear offset (offset + read.length))
    (rest : List UInt8) : pads.weave offset (read ++ rest) = read ++ pads.weave (offset + read.length) rest := by
  induction read generalizing offset with
  | nil => rfl
  | cons byte read ih =>
      have hfirst : pads offset = [] := h offset (Nat.le_refl _) (by simp)
      have hrest : pads.Clear (offset + 1) (offset + 1 + read.length) := by
        intro p hfrom hto
        exact h p (by omega) (by simp only [List.length_cons]; omega)
      rw [List.cons_append, weave, hfirst, ih hrest, List.length_cons, Nat.add_right_comm, ← Nat.add_assoc]
      rfl

theorem widthBefore_of_clear {first last : Nat} (hle : first ≤ last) (h : pads.Clear first last) :
    pads.widthBefore last = pads.widthBefore first := by
  induction last, hle using Nat.le_induction with
  | base => rfl
  | succ last hle ih =>
      have hlast : pads last = [] := h last hle (Nat.lt_succ_self _)
      have hbelow : pads.Clear first last := fun p hfrom hto => h p hfrom (Nat.lt_succ_of_lt hto)
      rw [widthBefore, ih hbelow, hlast]
      rfl

theorem widthBefore_mono {first last : Nat} (hle : first ≤ last) :
    pads.widthBefore first ≤ pads.widthBefore last := by
  induction last, hle using Nat.le_induction with
  | base => exact Nat.le_refl _
  | succ last _ ih => exact Nat.le_trans ih (Nat.le_add_right _ _)

theorem Clear.mono {first last first' last' : Nat} (h : pads.Clear first last) (hfirst : first ≤ first')
    (hlast : last' ≤ last) : pads.Clear first' last' :=
  fun p hfrom hto => h p (Nat.le_trans hfirst hfrom) (Nat.lt_of_lt_of_le hto hlast)

/-- A place of the blob, and the place of the padded blob that has the same bytes ahead, with the padding in front of
    the next one. Padding is as wide in the logical address space as in storage. -/
structure Trails (pads : Padding) (place inner : Place) : Prop where
  position : inner.position = place.position + pads.widthBefore place.input.offset
  rest : inner.input.rest = pads.weave place.input.offset place.input.rest

/-- The same, with the padding in front of the next byte already behind. -/
structure Stands (pads : Padding) (place inner : Place) : Prop where
  position : inner.position = place.position + pads.widthBefore (place.input.offset + 1)
  rest : ∃ byte left, place.input.rest = byte :: left ∧
    inner.input.rest = byte :: pads.weave (place.input.offset + 1) left

/-- Without padding in front of the next byte there is nothing to get behind. -/
theorem Trails.stands {place inner : Place} (h : pads.Trails place inner) (hclear : pads place.input.offset = [])
    (hmore : place.input.rest ≠ []) : pads.Stands place inner := by
  obtain ⟨byte, left, hrest⟩ := List.exists_cons_of_ne_nil hmore
  constructor
  · rw [widthBefore, hclear]
    exact h.position
  · refine ⟨byte, left, hrest, ?_⟩
    rw [h.rest, hrest, weave, hclear]
    rfl

/-- What stands at a place announces the same instruction. -/
theorem Stands.ahead {place inner : Place} (h : pads.Stands place inner) (dialect : Dialect) :
    inner.ahead dialect = place.ahead dialect := by
  obtain ⟨byte, left, hrest, hinner⟩ := h.rest
  rw [Place.ahead, Place.ahead, hrest, hinner]
  rfl

/-!
### Reading bytes
-/

/-- Where nothing is inserted within what the decoder takes, it makes the same of the padded blob. -/
def Replays (pads : Padding) (m : Decoder α) : Prop :=
  ∀ place next value inner, m place = .ok value next → pads.Trails place inner →
    pads.Clear place.input.offset next.input.offset →
    ∃ next', m inner = .ok value next' ∧ pads.Trails next next'

namespace Replays

theorem pure (value : α) : pads.Replays (Pure.pure value : Decoder α) := by
  intro place next result inner h htrails _
  cases h
  exact ⟨inner, rfl, htrails⟩

/-- Both parts of a sequence stay within what the sequence takes. -/
theorem bind {m : Decoder α} {rest : α → Decoder β} (hm : pads.Replays m)
    (hforward : Moves Place.Reaches m) (hforward' : ∀ value, Moves Place.Reaches (rest value))
    (hrest : ∀ value, pads.Replays (rest value)) : pads.Replays (m >>= rest) := by
  intro place next result inner h htrails hclear
  obtain ⟨value, middle, hfirst, hsecond⟩ := bind_eq_ok h
  have hbefore := (hforward.of_ok hfirst).input.offset_le
  have hafter := ((hforward' value).of_ok hsecond).input.offset_le
  obtain ⟨middle', hfirst', hmiddle⟩ := hm _ _ _ _ hfirst htrails (hclear.mono (Nat.le_refl _) hafter)
  obtain ⟨next', hsecond', hnext⟩ := hrest value _ _ _ _ hsecond hmiddle (hclear.mono hbefore (Nat.le_refl _))
  exact ⟨next', bind_of_ok hfirst' hsecond', hnext⟩

/-- A read of bytes alone. -/
theorem lift {reader : Reader α} (h : reader.Echoes reader) (width : α → Nat) :
    pads.Replays (Decoder.lift reader width) := by
  intro place next value inner hread htrails hclear
  unfold Decoder.lift at hread
  cases hreader : reader place.input with
  | error e input => simp [hreader] at hread
  | ok result input =>
      simp only [hreader, EStateM.Result.ok.injEq] at hread
      obtain ⟨rfl, rfl⟩ := hread
      obtain ⟨read, hrest, hoffset, hrecovers⟩ := h _ _ _ hreader
      simp only [hoffset] at hclear
      have hinner : inner.input.rest = read ++ pads.weave input.offset input.rest := by
        rw [htrails.rest, hrest, weave_append hclear, hoffset]
      have hread' := hrecovers inner.input.offset (pads.weave input.offset input.rest)
      rw [← hinner] at hread'
      refine ⟨⟨inner.position + width result, inner.input.offset + read.length, _⟩, ?_, ⟨?_, rfl⟩⟩
      · unfold Decoder.lift
        rw [hread']
      · simp only [htrails.position, hoffset, widthBefore_of_clear (Nat.le_add_right _ _) hclear]
        omega

/-- A loop whose steps take bytes. -/
theorem collect {step : Decoder (Option α)} (hstep : pads.Replays step) (hforward : Moves Place.Reaches step)
    (hadvances : Decoder.Advances step) : pads.Replays (Decoder.collect step) := by
  have hR := Place.Reaches.primitiveMoves ⟨0, 0⟩
  intro place next values inner h htrails hclear
  rw [Decoder.collect_eq_ok_iff hadvances] at h
  simp only [Decoder.collect_eq_ok_iff hadvances]
  induction h generalizing inner with
  | stop hlast =>
      obtain ⟨next', hlast', hnext⟩ := hstep _ _ _ _ hlast htrails hclear
      exact ⟨next', .stop hlast', hnext⟩
  | more hfirst hrest ih =>
      have hbefore := (hforward.of_ok hfirst).input.offset_le
      have hafter := ((hR.collect hforward).of_ok ((Decoder.collect_eq_ok_iff hadvances).2 hrest)).input.offset_le
      obtain ⟨middle', hfirst', hmiddle⟩ := hstep _ _ _ _ hfirst htrails (hclear.mono (Nat.le_refl _) hafter)
      obtain ⟨next', hrest', hnext⟩ := ih _ hmiddle (hclear.mono hbefore (Nat.le_refl _))
      exact ⟨next', .more hfirst' hrest', hnext⟩

theorem name (format : Format) : pads.Replays (Decoder.name format) := by
  refine lift ((Decoder.echoes_index format).bind fun index => ?_) _
  split
  · exact Reader.echoes_int.bind fun _ => Reader.echoes_pure _
  · exact (Reader.echoes_pure _).bind fun _ => Reader.echoes_pure _

theorem object (format : Format) : pads.Replays (Decoder.object format) :=
  lift ((Decoder.echoes_index format).bind fun _ => Reader.echoes_pure _) _

theorem labels (dialect : Dialect) : pads.Replays (Decoder.labels dialect) := by
  have hR := Place.Reaches.primitiveMoves dialect.format
  have hposition := fun (name : NameRef) => hR.bind hR.dword fun position => hR.pure
    (if Decoder.endsLabelTable dialect ⟨name, position⟩ then none else some (LabelEntry.mk name position))
  apply collect
  · apply (name dialect.format).bind hR.name hposition
    intro name
    exact (lift Reader.echoes_dword _).bind hR.dword (fun _ => hR.pure _) fun _ => pure _
  · exact hR.bind hR.name hposition
  · intro place next value hstep
    obtain ⟨name, middle, hname, hrest⟩ := bind_eq_ok hstep
    obtain ⟨position, last, hdword, hlast⟩ := bind_eq_ok hrest
    obtain ⟨-, rfl⟩ := EStateM.Result.ok.inj hlast
    have hfront := (hR.name.of_ok hname).input
    have hback := (hR.dword.of_ok hdword).input
    have := hfront.offset_add_length
    have := hback.offset_add_length
    have := hfront.offset_le
    have := Slice.dword_advance hdword
    omega

end Replays

end Padding

/-!
### Hidden instructions
-/

/-- The bytes of a hidden instruction: its code, three integers and a byte. -/
def Dialect.EncodesHidden (dialect : Dialect) : List UInt8 → Prop
  | [] => False
  | first :: fields => dialect.table.resolve dialect.natives ⟨first, none⟩ = .debugInfo ∧ fields.length = 13

/-- What encodes a hidden instruction is read as one, with any level left. -/
theorem Dialect.EncodesHidden.read {dialect : Dialect} {pad : List UInt8} (h : dialect.EncodesHidden pad)
    (levels position offset : Nat) (rest : List UInt8) :
    ∃ i, readInstruction dialect (levels + 1) ⟨position, offset, pad ++ rest⟩ =
      .ok i ⟨position + pad.length, offset + pad.length, rest⟩ := by
  match pad, h with
  | [first, v₀, v₁, v₂, v₃, l₀, l₁, l₂, l₃, c₀, c₁, c₂, c₃, mode], ⟨hkind, _⟩ =>
      have hneeds : Code.needsExtension first = false :=
        needsExtension_eq_false hkind rfl fun _ h => nomatch h
      have hcode := Decoder.code_of_plain hneeds position offset
        ([v₀, v₁, v₂, v₃, l₀, l₁, l₂, l₃, c₀, c₁, c₂, c₃, mode] ++ rest)
      have htoken : (layout dialect.format .debugInfo).decode dialect (readInstruction dialect levels)
          ⟨position + 1, offset + 1, [v₀, v₁, v₂, v₃, l₀, l₁, l₂, l₃, c₀, c₁, c₂, c₃, mode] ++ rest⟩ =
          .ok (.debugInfo (UInt32.ofNat (littleEndian [v₀, v₁, v₂, v₃])).toInt32
            (UInt32.ofNat (littleEndian [l₀, l₁, l₂, l₃])).toInt32
            (UInt32.ofNat (littleEndian [c₀, c₁, c₂, c₃])).toInt32 mode)
          ⟨position + 14, offset + 14, rest⟩ := rfl
      rw [← hkind] at htoken
      obtain ⟨i, hread, -⟩ := readInstruction_of_decode hcode htoken
      exact ⟨i, hread⟩

theorem Dialect.EncodesHidden.ahead {dialect : Dialect} {pad : List UInt8} (h : dialect.EncodesHidden pad)
    (position offset : Nat) (rest : List UInt8) :
    Place.ahead dialect ⟨position, offset, pad ++ rest⟩ = some .debugInfo := by
  match pad, h with
  | first :: fields, ⟨hkind, _⟩ => exact congrArg some hkind

/-- Hidden instructions in a row are skipped up to the first instruction that is not hidden. -/
theorem skips_pads {dialect : Dialect} {pads : List (List UInt8)} (h : ∀ pad ∈ pads, dialect.EncodesHidden pad)
    (levels position offset : Nat) {rest : List UInt8}
    (hvisible : ∀ position offset, ¬Place.ShowsHidden dialect ⟨position, offset, rest⟩) :
    Skips dialect (levels + 1) ⟨position, offset, pads.flatten ++ rest⟩
      ⟨position + pads.flatten.length, offset + pads.flatten.length, rest⟩ := by
  induction pads generalizing position offset with
  | nil => exact .stop (hvisible _ _)
  | cons pad pads ih =>
      have hpad := h pad (List.mem_cons_self ..)
      obtain ⟨i, hread⟩ := hpad.read levels position offset (pads.flatten ++ rest)
      rw [List.flatten_cons, List.append_assoc, List.length_append, ← Nat.add_assoc, ← Nat.add_assoc]
      refine .step ?_ hread (ih (fun pad hpad => h pad (List.mem_cons_of_mem _ hpad)) _ _)
      rw [Place.ShowsHidden, hpad.ahead]
      rfl

end ScriptBytecode
