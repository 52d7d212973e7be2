/-
Module: ScriptBytecode.Proofs.Decoding.Transparency
Purpose: Hidden instructions are transparent to operands. A blob and the blob with hidden instructions woven in are read
  side by side, from one operand to a list, to the fields of an instruction and to a whole body. Main statement: the
  trees that are decoded differ in their addresses only. A terminator that may be left out is looked for in the very
  next byte, so it is not found behind a hidden instruction; the last theorem shows what becomes of it.
Main exports: Padding.Harmless, harmless_readInstruction, Source.padded, Looping.padded, decode_padded
-/
import ScriptBytecode.Proofs.Decoding.InsertionPoints
import ScriptBytecode.Proofs.Decoding.Padding

namespace ScriptBytecode

/-!
### Reading instructions

The two blobs are read side by side. Padding in front of an operand is skipped as hidden instructions are, so the read
of the operand stands at its first byte; padding inside it is admitted by it. The ranges of operands do not overlap, so
padding within the range of an operand is not that of another one.
-/

/-- Padding that consists of hidden instructions. -/
def Padding.Hidden (pads : Padding) (dialect : Dialect) : Prop :=
  ∀ offset, ∀ pad ∈ pads offset, dialect.EncodesHidden pad

/-- Padding within the instruction stands where the instruction admits it. -/
def Padding.Fits (pads : Padding) (i : Instruction) : Prop :=
  ∀ offset, i.storagePosition < offset → offset < i.storageEnd → pads offset ≠ [] → i.Admits offset

/-- With some levels left, padded instructions are read as the same instructions with other addresses. -/
def Padding.Harmless (pads : Padding) (dialect : Dialect) (levels : Nat) : Prop :=
  ∀ {place next i inner}, readInstruction dialect levels place = .ok i next → pads.Stands place inner →
    pads.Fits i → ∃ j next', readInstruction dialect levels inner = .ok j next' ∧ i.bare = j.bare ∧
      pads.Trails next next'

namespace Padding

variable {pads : Padding} {dialect : Dialect} {levels : Nat} {place next inner : Place}

theorem Clear.fits {i : Instruction} (h : pads.Clear i.storagePosition i.storageEnd) : pads.Fits i :=
  fun offset hstart hend hpads => absurd (h offset (Nat.le_of_lt hstart) hend) hpads

/-- The next byte of a padded blob is the next byte of the blob, or padding comes first. -/
theorem Trails.ahead (htrails : pads.Trails place inner) (hhidden : pads.Hidden dialect) :
    inner.ahead dialect = place.ahead dialect ∨ inner.ahead dialect = some .debugInfo := by
  obtain ⟨position, offset, rest⟩ := inner
  obtain rfl : rest = _ := htrails.rest
  cases hrest : place.input.rest with
  | nil => exact .inl (by rw [Place.ahead, Place.ahead, hrest]; rfl)
  | cons byte left =>
      cases hpads : pads place.input.offset with
      | nil =>
          refine .inl ?_
          simp only [Place.ahead, hrest, weave, hpads]
          rfl
      | cons pad more =>
          refine .inr ?_
          have hpad : dialect.EncodesHidden pad := hhidden place.input.offset pad (by simp [hpads])
          rw [weave, hpads, List.flatten_cons, List.append_assoc]
          exact hpad.ahead _ _ _

/-- Hidden instructions of the blob are skipped in the padded blob as well, and so is the padding behind them. -/
theorem Harmless.skips (hharmless : pads.Harmless dialect levels) (hhidden : pads.Hidden dialect)
    (hlevels : levels ≠ 0) {start : Place} (hskips : Skips dialect levels place start)
    (hmore : start.input.rest ≠ []) (htrails : pads.Trails place inner)
    (hclear : pads.Clear place.input.offset start.input.offset) :
    ∃ start', Skips dialect levels inner start' ∧ pads.Stands start start' := by
  induction hskips generalizing inner with
  | @stop place hvisible =>
      obtain ⟨fewer, rfl⟩ := Nat.exists_eq_succ_of_ne_zero hlevels
      obtain ⟨byte, left, hrest⟩ := List.exists_cons_of_ne_nil hmore
      obtain ⟨position, offset, rest⟩ := inner
      obtain rfl : rest = _ := htrails.rest
      have hbyte : ∀ position offset, ¬Place.ShowsHidden dialect
          ⟨position, offset, byte :: pads.weave (place.input.offset + 1) left⟩ := by
        intro position offset hshows
        apply hvisible
        rw [Place.ShowsHidden, Place.ahead] at hshows ⊢
        rwa [hrest]
      rw [hrest, weave]
      refine ⟨_, skips_pads (hhidden place.input.offset) fewer position offset hbyte, ⟨?_, byte, left, hrest, rfl⟩⟩
      have hposition : position = _ := htrails.position
      rw [hposition, widthBefore, Nat.add_assoc]
  | @step place middle start i hshows hread hrest ih =>
      have hspans := readInstruction_spans hread
      have hfront := readInstruction_offset_lt hread
      have hback := hrest.reaches.input.offset_le
      have hstands := htrails.stands (hclear _ (Nat.le_refl _) (Nat.lt_of_lt_of_le hfront hback))
        (rest_ne_nil_of_readInstruction hread)
      have hfits : pads.Fits i := by
        apply Clear.fits
        rw [hspans.storagePosition, hspans.storageEnd]
        exact hclear.mono (Nat.le_refl _) hback
      obtain ⟨j, middle', hread', -, hmiddle⟩ := hharmless hread hstands hfits
      obtain ⟨start', hskips', hstart⟩ := ih hmore hmiddle (hclear.mono (Nat.le_of_lt hfront) (Nat.le_refl _))
      refine ⟨start', .step ?_ hread' hskips', hstart⟩
      rwa [Place.ShowsHidden, hstands.ahead]

/-- An operand is read as the same one, if the padding stands in front of it or where it admits it. -/
theorem Harmless.operand (hharmless : pads.Harmless dialect levels) (hhidden : pads.Hidden dialect)
    {i : Instruction} (h : Decoder.operand dialect (readInstruction dialect levels) place = .ok i next)
    (htrails : pads.Trails place inner)
    (hpads : ∀ offset, place.input.offset ≤ offset → offset < next.input.offset → pads offset ≠ [] →
      offset = i.storagePosition ∨ i.Admits offset) :
    ∃ j next', Decoder.operand dialect (readInstruction dialect levels) inner = .ok j next' ∧
      i.bare = j.bare ∧ pads.Trails next next' := by
  obtain ⟨start, hskips, hread⟩ := operand_eq_ok_iff.1 h
  have hspans := readInstruction_spans hread
  have hfront := hskips.reaches.input.offset_le
  have hback := readInstruction_offset_lt hread
  have hlevels : levels ≠ 0 := by
    rintro rfl
    cases hread
  have hclear : pads.Clear place.input.offset start.input.offset := by
    intro offset hfrom hto
    by_contra hne
    rcases hpads offset hfrom (Nat.lt_trans hto hback) hne with hstart | hadmits
    · rw [hstart, hspans.storagePosition] at hto
      exact Nat.lt_irrefl _ hto
    · have := (readInstruction_admits hread hadmits).1
      rw [hspans.storagePosition] at this
      omega
  have hfits : pads.Fits i := by
    intro offset hstart hend hne
    have hfrom : place.input.offset ≤ offset := by
      rw [hspans.storagePosition] at hstart
      omega
    rw [hspans.storageEnd] at hend
    exact (hpads offset hfrom hend hne).resolve_left (Nat.ne_of_gt hstart)
  obtain ⟨start', hskips', hstands⟩ :=
    hharmless.skips hhidden hlevels hskips (rest_ne_nil_of_readInstruction hread) htrails hclear
  obtain ⟨j, next', hread', hsame, hnext⟩ := hharmless hread hstands hfits
  exact ⟨j, next', operand_eq_ok_iff.2 ⟨start', hskips', hread'⟩, hsame, hnext⟩

/-- A list of operands. The induction is on its steps; the last one reads the terminator. -/
theorem Harmless.list (hharmless : pads.Harmless dialect levels) (hhidden : pads.Hidden dialect)
    {terminator : Opcode} {operands : List Instruction}
    (h : Decoder.Collects (listStep dialect levels terminator) place operands next)
    (htrails : pads.Trails place inner)
    (hpads : ∀ offset, place.input.offset ≤ offset → offset < next.input.offset → pads offset ≠ [] →
      (∃ c ∈ operands, c.Takes offset) ∨ (terminator.endsList = true ∧ offset + 1 = next.input.offset)) :
    ∃ operands' next', Decoder.Collects (listStep dialect levels terminator) inner operands' next' ∧
      operands.map (·.bare) = operands'.map (·.bare) ∧ pads.Trails next next' := by
  induction h generalizing inner with
  | @stop place next hstep =>
      obtain ⟨last, hlast, hkind⟩ := listStep_none.1 hstep
      obtain ⟨start, hskips, hread⟩ := operand_eq_ok_iff.1 hlast
      obtain ⟨last', next', hlast', hsame, hnext⟩ := hharmless.operand hhidden hlast htrails (by
        intro offset hfrom hto hne
        rcases hpads offset hfrom hto hne with ⟨c, hc, -⟩ | ⟨hends, hoffset⟩
        · cases hc
        · have hbyte := offset_of_endsList hread (hkind ▸ hends)
          refine .inl ?_
          rw [(readInstruction_spans hread).storagePosition]
          omega)
      have hkind' : last'.opcode = terminator := by
        rw [← Instruction.bare_opcode, ← hsame, Instruction.bare_opcode, hkind]
      exact ⟨[], next', .stop (listStep_none.2 ⟨last', hlast', hkind'⟩), rfl, hnext⟩
  | @more place middle next c operands hstep hrest ih =>
      obtain ⟨hc, hkind⟩ := listStep_some.1 hstep
      have hchain := chain_of_collects hrest
      have hfirst : Chain dialect levels place [c] middle := by
        obtain ⟨start, hskips, hread⟩ := operand_eq_ok_iff.1 hc
        exact .cons hskips.reaches hskips.not_showsHidden hread (.nil (Place.Reaches.preorderly.refl _))
      have hfront := hfirst.reaches.input.offset_le
      have hback := offset_lt_of_collects hrest
      obtain ⟨c', middle', hc', hsame, hmiddle⟩ := hharmless.operand hhidden hc htrails (by
        intro offset hfrom hto hne
        rcases hpads offset hfrom (Nat.lt_trans hto hback) hne with ⟨d, hd, htakes⟩ | ⟨-, hoffset⟩
        · rcases List.mem_cons.1 hd with rfl | hd
          · exact htakes
          · have := (hchain.takes hd htakes).1
            omega
        · omega)
      obtain ⟨operands', next', hrest', hsames, hnext⟩ := ih hmiddle (by
        intro offset hfrom hto hne
        rcases hpads offset (Nat.le_trans hfront hfrom) hto hne with ⟨d, hd, htakes⟩ | hends
        · rcases List.mem_cons.1 hd with rfl | hd
          · have := (hfirst.takes (List.mem_cons_self ..) htakes).2
            omega
          · exact .inl ⟨d, hd, htakes⟩
        · exact .inr hends)
      have hkind' : c'.opcode ≠ terminator := by
        rw [← Instruction.bare_opcode, ← hsame, Instruction.bare_opcode]
        exact hkind
      refine ⟨c' :: operands', next', .more (listStep_some.2 ⟨hc', hkind'⟩) hrest', ?_, hnext⟩
      rw [List.map_cons, List.map_cons, hsame, hsames]

/-- A terminator that may be left out. Padding stands neither in front of it nor behind it within the field; where it is
    left out, the padding of what follows does not look like one. -/
theorem Harmless.optionalTerminator (hharmless : pads.Harmless dialect levels) (hhidden : pads.Hidden dialect)
    (h : Decoder.optionalTerminator dialect (readInstruction dialect levels) place = .ok () next)
    (htrails : pads.Trails place inner) (hclear : pads.Clear place.input.offset next.input.offset) :
    ∃ next', Decoder.optionalTerminator dialect (readInstruction dialect levels) inner = .ok () next' ∧
      pads.Trails next next' := by
  change (if place.ahead dialect = some .endFunctionParms then
    (do let _ ← readInstruction dialect levels) else pure () : Decoder Unit) place = _ at h
  change ∃ next', (if inner.ahead dialect = some .endFunctionParms then
    (do let _ ← readInstruction dialect levels) else pure () : Decoder Unit) inner = _ ∧ _
  by_cases hpresent : place.ahead dialect = some .endFunctionParms
  · rw [if_pos hpresent] at h
    obtain ⟨i, middle, hread, hlast⟩ := bind_eq_ok h
    cases hlast
    have hspans := readInstruction_spans hread
    have hstands := htrails.stands (hclear _ (Nat.le_refl _) (readInstruction_offset_lt hread))
      (rest_ne_nil_of_readInstruction hread)
    have hfits : pads.Fits i := by
      apply Clear.fits
      rwa [hspans.storagePosition, hspans.storageEnd]
    obtain ⟨j, next', hread', -, hnext⟩ := hharmless hread hstands hfits
    rw [if_pos (hstands.ahead dialect ▸ hpresent)]
    exact ⟨next', bind_of_ok hread' rfl, hnext⟩
  · rw [if_neg hpresent] at h
    cases h
    have hmissing : inner.ahead dialect ≠ some .endFunctionParms := by
      rcases htrails.ahead hhidden with hsame | hpad
      · rwa [hsame]
      · rw [hpad]
        exact fun h => nomatch h
    rw [if_neg hmissing]
    exact ⟨inner, rfl, htrails⟩

/-- A field is read as one that holds the same. -/
theorem Harmless.field (hharmless : pads.Harmless dialect levels) (hhidden : pads.Hidden dialect) {part : Filled}
    (h : part.field.read dialect (readInstruction dialect levels) place = .ok part.value next)
    (htrails : pads.Trails place inner)
    (hpads : ∀ offset, place.input.offset ≤ offset → offset < next.input.offset → pads offset ≠ [] →
      (∃ c ∈ part.operands, c.Takes offset) ∨ part.Closes next.input.offset offset) :
    ∃ part' next', part'.field.read dialect (readInstruction dialect levels) inner = .ok part'.value next' ∧
      part.Same part' ∧ pads.Trails next next' := by
  have hR := Place.Reaches.primitiveMoves dialect.format
  -- Fields without operands leave no room for padding, and are read byte by byte.
  have hbytes : part.operands = [] → part.list? = none →
      pads.Clear place.input.offset next.input.offset := by
    intro hnone hlist offset hfrom hto
    by_contra hne
    rcases hpads offset hfrom hto hne with ⟨c, hc, -⟩ | ⟨terminator, operands, hsome, -⟩
    · rw [hnone] at hc
      cases hc
    · rw [hlist] at hsome
      cases hsome
  obtain ⟨field, value⟩ := part
  have hplain : pads.Replays (field.read dialect (readInstruction dialect levels)) →
      pads.Clear place.input.offset next.input.offset → field.Same value value →
      ∃ part' next', part'.field.read dialect (readInstruction dialect levels) inner = .ok part'.value next' ∧
        Filled.Same ⟨field, value⟩ part' ∧ pads.Trails next next' := by
    intro hreplays hclear hsame
    obtain ⟨next', hread, hnext⟩ := hreplays _ _ _ _ h htrails hclear
    exact ⟨⟨field, value⟩, next', hread, .mk hsame, hnext⟩
  cases field with
  | operand =>
      obtain ⟨j, next', hread, hsame, hnext⟩ := hharmless.operand hhidden h htrails (by
        intro offset hfrom hto hne
        rcases hpads offset hfrom hto hne with ⟨c, hc, htakes⟩ | ⟨terminator, operands, hlist, -⟩
        · obtain rfl := List.mem_singleton.1 hc
          exact htakes
        · cases hlist)
      exact ⟨⟨.operand, j⟩, next', hread, .mk hsame, hnext⟩
  | operandsUntil terminator =>
      obtain ⟨operands', next', hread, hsame, hnext⟩ := hharmless.list hhidden (operandsUntil_eq_ok_iff.1 h) htrails (by
        intro offset hfrom hto hne
        rcases hpads offset hfrom hto hne with htakes | ⟨terminator', operands, hlist, hends⟩
        · exact .inl htakes
        · cases hlist
          exact .inr hends)
      exact ⟨⟨.operandsUntil terminator, operands'⟩, next', operandsUntil_eq_ok_iff.2 hread, .mk hsame, hnext⟩
  | optionalTerminator =>
      obtain ⟨next', hread, hnext⟩ := hharmless.optionalTerminator hhidden h htrails (hbytes rfl rfl)
      exact ⟨⟨.optionalTerminator, ()⟩, next', hread, .mk rfl, hnext⟩
  | byte => exact hplain (.lift Reader.echoes_byte _) (hbytes rfl rfl) rfl
  | word => exact hplain (.lift Reader.echoes_word _) (hbytes rfl rfl) rfl
  | int => exact hplain (.lift Reader.echoes_int _) (hbytes rfl rfl) rfl
  | single => exact hplain (.lift Reader.echoes_single _) (hbytes rfl rfl) rfl
  | ansiString =>
      exact hplain ((Replays.lift Reader.echoes_ansiString _).bind hR.ansiString (fun _ => hR.pure _)
        fun _ => .pure _) (hbytes rfl rfl) rfl
  | wideString =>
      exact hplain ((Replays.lift Reader.echoes_wideString _).bind hR.wideString (fun _ => hR.pure _)
        fun _ => .pure _) (hbytes rfl rfl) rfl
  | name => exact hplain (.name _) (hbytes rfl rfl) rfl
  | object => exact hplain (.object _) (hbytes rfl rfl) rfl
  | labels => exact hplain (.labels _) (hbytes rfl rfl) rfl

/-- Fields in a row. Padding in the range of one field is not that of another one. -/
theorem Harmless.fills (hharmless : pads.Harmless dialect levels) (hhidden : pads.Hidden dialect)
    {parts : List Filled} (h : Fills dialect levels place parts next) (htrails : pads.Trails place inner)
    (hpads : ∀ offset, place.input.offset ≤ offset → offset < next.input.offset → pads offset ≠ [] →
      (∃ c ∈ parts.flatMap Filled.operands, c.Takes offset) ∨
        ∃ part, parts.getLast? = some part ∧ part.Closes next.input.offset offset) :
    ∃ parts' next', Fills dialect levels inner parts' next' ∧ List.Forall₂ Filled.Same parts parts' ∧
      pads.Trails next next' := by
  induction h generalizing inner with
  | nil => exact ⟨[], inner, .nil, .nil, htrails⟩
  | @cons place middle next part parts hread hrest ih =>
      have hfirst := chain_of_read hread
      have hfront := hfirst.reaches.input.offset_le
      have hback := hrest.reaches.input.offset_le
      obtain ⟨part', middle', hread', hsame, hmiddle⟩ := hharmless.field hhidden hread htrails (by
        intro offset hfrom hto hne
        rcases hpads offset hfrom (Nat.lt_of_lt_of_le hto hback) hne with ⟨c, hc, htakes⟩ | ⟨last, hlast, hcloses⟩
        · rw [List.flatMap_cons, List.mem_append] at hc
          rcases hc with hc | hc
          · exact .inl ⟨c, hc, htakes⟩
          · have := (hrest.chain.takes hc htakes).1
            omega
        · -- A list that ends with the fields takes a byte, so it is not behind this field.
          cases parts with
          | nil =>
              cases hlast
              cases hrest
              exact .inr hcloses
          | cons second parts =>
              rw [List.getLast?_cons_cons] at hlast
              obtain ⟨terminator, operands, hlist, -, hoffset⟩ := hcloses
              have := hrest.offset_lt (by rw [hlast, Option.bind_some, hlist]; rfl)
              omega)
      obtain ⟨parts', next', hrest', hsames, hnext⟩ := ih hmiddle (by
        intro offset hfrom hto hne
        rcases hpads offset (Nat.le_trans hfront hfrom) hto hne with ⟨c, hc, htakes⟩ | ⟨last, hlast, hcloses⟩
        · rw [List.flatMap_cons, List.mem_append] at hc
          rcases hc with hc | hc
          · have := (hfirst.takes hc htakes).2
            omega
          · exact .inl ⟨c, hc, htakes⟩
        · cases parts with
          | nil =>
              cases hrest
              omega
          | cons second parts =>
              rw [List.getLast?_cons_cons] at hlast
              exact .inr ⟨last, hlast, hcloses⟩)
      exact ⟨part' :: parts', next', .cons hread' hrest', .cons hsame hsames, hnext⟩

/-- The code of an instruction, with the padding in front of it already behind. -/
theorem Stands.code {afterCode : Place} {code : Code} (h : Decoder.code place = .ok code afterCode)
    (hstands : pads.Stands place inner)
    (hclear : pads.Clear (place.input.offset + 1) afterCode.input.offset) :
    ∃ afterCode', Decoder.code inner = .ok code afterCode' ∧ pads.Trails afterCode afterCode' := by
  have hR := Place.Reaches.primitiveMoves ⟨0, 0⟩
  obtain ⟨byte, left, hrest, hinner⟩ := hstands.rest
  have hposition := hstands.position
  obtain ⟨position, offset, rest⟩ := place
  obtain ⟨position', offset', rest'⟩ := inner
  simp only at hrest hinner hposition hclear
  subst hrest hinner hposition
  obtain ⟨first, middle, hbyte, hextension⟩ := bind_eq_ok h
  cases hbyte
  have hmiddle : pads.Trails ⟨position + 1, offset + 1, left⟩
      ⟨position + pads.widthBefore (offset + 1) + 1, offset' + 1, pads.weave (offset + 1) left⟩ :=
    ⟨Nat.add_right_comm .., rfl⟩
  have hreplays : pads.Replays (do
      if Code.needsExtension byte then
        let next ← Decoder.plain Reader.byte 1
        return ⟨byte, some next⟩
      else
        return ⟨byte, none⟩ : Decoder Code) := by
    split
    · exact (Replays.lift Reader.echoes_byte _).bind hR.byte (fun _ => hR.pure _) fun _ => .pure _
    · exact .pure _
  obtain ⟨afterCode', hextension', htrails⟩ := hreplays _ _ _ _ hextension hmiddle hclear
  exact ⟨afterCode', bind_of_ok rfl hextension', htrails⟩

end Padding

/-- Padding is harmless to whole instructions. The induction is on the levels left. -/
theorem harmless_readInstruction {pads : Padding} {dialect : Dialect} (hhidden : pads.Hidden dialect)
    (levels : Nat) : pads.Harmless dialect levels := by
  induction levels with
  | zero => exact fun h => nomatch h
  | succ levels ih =>
      intro place next i inner h hstands hfits
      have hspans := readInstruction_spans h
      obtain ⟨fewer, afterCode, parts, hlevels, hcomposed⟩ := readInstruction_composed h
      cases hlevels
      have hcode := (Decoder.code_ok hcomposed.code).2
      have hback := hcomposed.fills.reaches.input.offset_le
      have hinside : ∀ offset, place.input.offset < offset → offset < next.input.offset → pads offset ≠ [] →
          i.Admits offset := by
        intro offset hfrom hto
        rw [← hspans.storagePosition] at hfrom
        rw [← hspans.storageEnd] at hto
        exact hfits offset hfrom hto
      obtain ⟨afterCode', hcode', hafter⟩ := hstands.code hcomposed.code (by
        intro offset hfrom hto
        by_contra hne
        have := hcomposed.le_of_admits hspans.storageEnd
          (hinside offset hfrom (Nat.lt_of_lt_of_le hto hback) hne)
        omega)
      obtain ⟨parts', next', hfills', hsame, hnext⟩ :=
          ih.fills hhidden hcomposed.fills hafter fun offset hfrom hto hne =>
        hcomposed.takes_or_closes hspans.storageEnd
          (hinside offset (Nat.lt_of_lt_of_le hcode hfrom) hto hne)
      obtain ⟨token', hyields', htoken⟩ := (alike_layout _ _).yields hcomposed.yields hsame
      rw [← hcomposed.kind] at hyields'
      obtain ⟨j, hread, hjcode, hjopcode, hjtoken⟩ :=
        readInstruction_of_decode hcode' (Layout.decode_eq_ok_iff.2 ⟨parts', hyields', hfills'⟩)
      refine ⟨j, next', hread, ?_, hnext⟩
      rw [Instruction.bare, Instruction.bare, Instruction.fold_eq, Instruction.fold_eq, hjcode, hjopcode, hjtoken,
        hcomposed.kind]
      exact congrArg _ htoken

/-!
### Bodies
-/

/-- The source with padding woven in; its size grows by the logical size of the padding. -/
def Source.padded (source : Source) (pads : Padding) : Source where
  declaration := source.declaration
  bytes := pads.weave 0 source.bytes
  declaredSize := source.declaredSize + pads.widthBefore source.bytes.length

namespace Looping

variable {dialect : Dialect} {declaredSize : Nat} {place halt : Place} {instructions : List Instruction}
  {failure : Option DecodeError}

/-- Top-level instructions stand at the place or behind it. -/
theorem le_storagePosition (h : Looping dialect declaredSize place instructions failure halt) {i : Instruction}
    (hi : i ∈ instructions) : place.input.offset ≤ i.storagePosition := by
  induction h with
  | stop => cases hi
  | fail => cases hi
  | step _ hread _ ih =>
      rcases List.mem_cons.1 hi with rfl | hi
      · exact Nat.le_of_eq (readInstruction_spans hread).storagePosition.symm
      · exact Nat.le_trans (Nat.le_of_lt (readInstruction_offset_lt hread)) (ih hi)

/-- Padding that the instructions admit stands behind the place. -/
theorem lt_of_admits (h : Looping dialect declaredSize place instructions failure halt) {i : Instruction}
    (hi : i ∈ instructions) {offset : Nat} (hadmits : i.Admits offset) : place.input.offset < offset := by
  obtain ⟨start, stop, -, hread⟩ := h.exists_moves (Place.Reaches.primitiveMoves dialect.format) hi
  exact Nat.lt_of_le_of_lt (h.le_storagePosition hi) (readInstruction_admits hread hadmits).1

/-- Padding that a run admits splits at its first instruction: nothing in front of it, then what it admits itself, and
    then what the rest of the run admits. -/
theorem split_padding {pads : Padding} {next : Place} {i : Instruction} (hopen : place.Open declaredSize)
    (hread : readInstruction dialect maxNesting place = .ok i next)
    (hrest : Looping dialect declaredSize next instructions failure halt)
    (hpads : ∀ offset, place.input.offset ≤ offset → pads offset ≠ [] → ∃ j ∈ i :: instructions, j.Admits offset) :
    pads place.input.offset = [] ∧ pads.Fits i ∧
      ∀ offset, next.input.offset ≤ offset → pads offset ≠ [] → ∃ j ∈ instructions, j.Admits offset := by
  have hspans := readInstruction_spans hread
  refine ⟨?_, ?_, ?_⟩
  · by_contra hne
    obtain ⟨j, hj, hadmits⟩ := hpads _ (Nat.le_refl _) hne
    exact Nat.lt_irrefl _ ((Looping.step hopen hread hrest).lt_of_admits hj hadmits)
  · intro offset hstart hend hne
    rw [hspans.storagePosition] at hstart
    rw [hspans.storageEnd] at hend
    obtain ⟨j, hj, hadmits⟩ := hpads offset (Nat.le_of_lt hstart) hne
    rcases List.mem_cons.1 hj with rfl | hj
    · exact hadmits
    · exact absurd (hrest.lt_of_admits hj hadmits) (Nat.lt_asymm hend)
  · intro offset hfrom hne
    obtain ⟨j, hj, hadmits⟩ := hpads offset (Nat.le_trans (Nat.le_of_lt (readInstruction_offset_lt hread)) hfrom) hne
    rcases List.mem_cons.1 hj with rfl | hj
    · have hend := (readInstruction_admits hread hadmits).2
      rw [hspans.storageEnd] at hend
      exact absurd hfrom (Nat.not_le.2 hend)
    · exact ⟨j, hj, hadmits⟩

/-- Padding that the instructions admit is harmless to all of them. The place of the padded blob has moved on by the
    padding behind it, and the declared size has grown by all of the padding, so both runs stop together. -/
theorem padded {pads : Padding} (hhidden : pads.Hidden dialect)
    (h : Looping dialect declaredSize place instructions failure halt) (hintact : failure = none) {inner : Place}
    (htrails : pads.Trails place inner)
    (hpads : ∀ offset, place.input.offset ≤ offset → pads offset ≠ [] → ∃ i ∈ instructions, i.Admits offset) :
    ∃ instructions' halt', Looping dialect
        (declaredSize + pads.widthBefore (place.input.offset + place.input.rest.length)) inner instructions' none
        halt' ∧
      instructions'.map (·.bare) = instructions.map (·.bare) := by
  induction h generalizing inner with
  | fail => cases hintact
  | @stop place hstop =>
      refine ⟨[], inner, .stop fun hopen => hstop ?_, rfl⟩
      have hclear : pads.Clear place.input.offset (place.input.offset + place.input.rest.length) := by
        intro offset hfrom _
        by_contra hne
        obtain ⟨i, hi, -⟩ := hpads offset hfrom hne
        cases hi
      have hbelow := hopen.below
      rw [Padding.widthBefore_of_clear (Nat.le_add_right _ _) hclear, htrails.position] at hbelow
      refine ⟨Nat.lt_of_add_lt_add_right hbelow, fun hempty => hopen.bytes ?_⟩
      rw [htrails.rest, hempty]
      rfl
  | @step place next halt i instructions failure hopen hread hrest ih =>
      obtain ⟨hclear, hfits, hbehind⟩ := split_padding hopen hread hrest hpads
      obtain ⟨j, next', hread', hsame, hnext⟩ := harmless_readInstruction hhidden maxNesting hread
        (htrails.stands hclear (rest_ne_nil_of_readInstruction hread)) hfits
      obtain ⟨instructions', halt', hrest', hsames⟩ := ih hintact hnext hbehind
      rw [(readInstruction_spans hread).reaches.input.offset_add_length] at hrest'
      refine ⟨j :: instructions', halt', .step ⟨?_, rest_ne_nil_of_readInstruction hread'⟩ hread' hrest', ?_⟩
      · rw [htrails.position]
        exact Nat.add_lt_add_of_lt_of_le hopen.below (Padding.widthBefore_mono (Nat.le_add_right _ _))
      · rw [List.map_cons, List.map_cons, hsame, hsames]

end Looping

/-- Hidden instructions are transparent in front of operands and in front of what ends a list. Whatever decodes
    without a failure decodes, with hidden instructions woven in where the instructions admit them, to the same
    instructions: the same codes, kinds, operands and lists at every depth, and as many at the top. -/
theorem decode_padded (source : Source) (dialect : Dialect) (pads : Padding)
    (hhidden : ∀ offset, ∀ pad ∈ pads offset, dialect.EncodesHidden pad)
    (hintact : (source.decode dialect).failure = none)
    (hadmits : ∀ offset, pads offset ≠ [] → ∃ i ∈ (source.decode dialect).instructions, i.Admits offset) :
    ((source.padded pads).decode dialect).failure = none ∧
      ((source.padded pads).decode dialect).instructions.map (·.bare) =
        (source.decode dialect).instructions.map (·.bare) := by
  have htrails : pads.Trails (.start source.bytes) (.start (source.padded pads).bytes) := ⟨rfl, rfl⟩
  obtain ⟨instructions, halt, hlooping, hsame⟩ := (looping_decode source dialect).padded hhidden hintact htrails (by
    intro offset _ hne
    obtain ⟨i, hi, hi'⟩ := hadmits offset hne
    exact ⟨i, Array.mem_toList_iff.2 hi, hi'⟩)
  have hsize : (source.padded pads).declaredSize = source.declaredSize +
      pads.widthBefore ((Place.start source.bytes).input.offset + (Place.start source.bytes).input.rest.length) := by
    simp only [Source.padded, Place.start, Input.ofBytes, Nat.zero_add]
  rw [← hsize] at hlooping
  obtain ⟨hinstructions, hfailure⟩ := decode_of_looping (source.padded pads) hlooping
  refine ⟨hfailure, ?_⟩
  rw [hinstructions, List.map_toArray, hsame, ← List.map_toArray, Array.toArray_toList]

/-- The bytes of a hidden instruction whose fields are all zero. -/
def debugMark : List UInt8 := 0x41 :: List.replicate 13 0

/-- A call with two arguments. The first one is a comparison that has left its terminator out. -/
def comparingCall : Source :=
  ⟨"Compare", [0x1B, 0, 0, 0, 0, 0, 0, 0, 0, 0x3B, 0x17, 0x17, 0x26, 0x16], 14⟩

/-- Marks in front of both arguments, inside the first one and in front of the end of parameters. -/
def comparingCallMarks : Padding
  | 9 | 11 | 12 => [debugMark]
  | 13 => [debugMark, debugMark]
  | _ => []

/-- The first argument as it is decoded. -/
def comparingArgument : Instruction :=
  ⟨⟨0x3B, none⟩, .delegateEq, 9, 3, 9, 3, .delegateCmp
    ⟨⟨0x17, none⟩, .selfObject, 10, 1, 10, 1, .noOperands⟩
    ⟨⟨0x17, none⟩, .selfObject, 11, 1, 11, 1, .noOperands⟩⟩

/-- The call as it is decoded. -/
def comparingCallTree : Instruction :=
  ⟨⟨0x1B, none⟩, .virtualFunction, 0, 14, 0, 14, .call (.virtual ⟨0, 0⟩)
    [comparingArgument, ⟨⟨0x26, none⟩, .intOne, 12, 1, 12, 1, .noOperands⟩]⟩

theorem decode_padded_comparingCall :
    (comparingCall.decode delegateDialect).failure = none ∧
      ((comparingCall.padded comparingCallMarks).decode delegateDialect).failure = none ∧
      ((comparingCall.padded comparingCallMarks).decode delegateDialect).instructions.map (·.bare) =
        (comparingCall.decode delegateDialect).instructions.map (·.bare) := by
  have hdecode : (comparingCall.decode delegateDialect).instructions = #[comparingCallTree] := rfl
  have hintact : (comparingCall.decode delegateDialect).failure = none := rfl
  refine ⟨hintact, decode_padded _ _ _ ?_ hintact ?_⟩
  · have hmark : delegateDialect.EncodesHidden debugMark := ⟨rfl, rfl⟩
    intro offset pad hpad
    unfold comparingCallMarks at hpad
    split at hpad <;> simp only [List.mem_cons, List.not_mem_nil, or_false, or_self] at hpad <;> exact hpad ▸ hmark
  · intro offset hpads
    refine ⟨comparingCallTree, hdecode ▸ List.mem_toArray.2 (List.mem_singleton.2 rfl), ?_⟩
    have hargument : comparingArgument ∈ comparingCallTree.operands := List.mem_cons_self ..
    unfold comparingCallMarks at hpads
    apply Instruction.admits_iff.2
    split at hpads
    · exact .inl (.inl ⟨comparingArgument, hargument, rfl⟩)
    · exact .inr ⟨comparingArgument, hargument, Instruction.admits_iff.2
        (.inl (.inl ⟨_, List.mem_cons_of_mem _ (List.mem_singleton.2 rfl), rfl⟩))⟩
    · exact .inl (.inl ⟨_, List.mem_cons_of_mem _ (List.mem_singleton.2 rfl), rfl⟩)
    · exact .inl (.inr ⟨rfl, rfl⟩)
    · exact absurd rfl hpads

/-- A comparison that has its terminator. -/
def endedComparison : Source := ⟨"Compare", [0x3B, 0x17, 0x17, 0x16], 4⟩

/-- A hidden instruction in front of a terminator that may be left out hides the terminator: the comparison ends before
    both, and they stand at the top. -/
theorem decode_hidden_before_optionalTerminator :
    (endedComparison.decode delegateDialect).instructions.toList.map (·.opcode) = [.delegateEq] ∧
      ((endedComparison.padded fun offset => if offset = 3 then [debugMark] else []).decode
        delegateDialect).instructions.toList.map (·.opcode) = [.delegateEq, .debugInfo, .endFunctionParms] :=
  ⟨rfl, rfl⟩

end ScriptBytecode
