/-
Module: ScriptBytecode.Proofs.Listing.Lines
Purpose: The lines of a listing. No part of a line holds a line feed, whatever the operands are: texts are listed with
  their line feeds escaped, and all else is made of numerals and fixed words. So the listing falls into the lines that
  it was made of, and the first columns of a line tell where its instruction stands.
Main exports: Text.OneLine, Instruction.oneLine_line, Text.readColumns, Instruction.readColumns_line, Text.splitOn_join
-/
import ScriptBytecode.Listing
import ScriptBytecode.Proofs.Text.Numerals

namespace ScriptBytecode

namespace Text

/-- The text holds no line feed. -/
def OneLine (text : String) : Prop := '\n' ∉ text.toList

namespace OneLine

theorem ofChars (chars : List Char) (h : chars.all (· != '\n') = true) : OneLine (String.ofList chars) := by
  intro hmem
  rw [String.toList_ofList] at hmem
  have hother := List.all_eq_true.1 h _ hmem
  cases hother

theorem append {a b : String} (ha : OneLine a) (hb : OneLine b) : OneLine (a ++ b) := by
  intro hmem
  rw [String.toList_append, List.mem_append] at hmem
  exact hmem.elim ha hb

theorem ofAlphanumeric {text : String} (h : IsAlphanumeric text.toList) : OneLine text := h.not_mem rfl

/-- A character other than a line feed, again and again. -/
theorem replicate {fill : Char} (hfill : fill ≠ '\n') (count : Nat) :
    OneLine (String.ofList (List.replicate count fill)) := by
  intro hmem
  rw [String.toList_ofList] at hmem
  exact hfill (List.eq_of_mem_replicate hmem).symm

theorem decimal (n : Nat) : OneLine (toString n) := ofAlphanumeric (isAlphanumeric_decimal n)

theorem integer (n : Int) : OneLine (toString n) := by
  show OneLine (Int.repr n)
  rw [Int.repr_eq_if]
  split
  · exact decimal _
  · exact (ofChars ['-'] rfl).append (decimal _)

theorem hexUpper (width n : Nat) : OneLine (Text.hexUpper width n) := ofAlphanumeric (isAlphanumeric_hexUpper width n)

theorem codeByte (n : Nat) : OneLine (Text.codeByte n) :=
  (ofChars ['0', 'x'] rfl).append (ofAlphanumeric (isAlphanumeric_hex 2 n))

theorem address (n : Nat) : OneLine (Text.address n) :=
  (ofChars ['0', 'x'] rfl).append (ofAlphanumeric (isAlphanumeric_hex 4 n))

theorem padLeft {s : String} (h : OneLine s) (width : Nat) : OneLine (Text.padLeft width ' ' s) :=
  (replicate (by decide) _).append h

theorem padRight {s : String} (h : OneLine s) (width : Nat) : OneLine (Text.padRight width ' ' s) :=
  h.append (replicate (by decide) _)

end OneLine

/-!
### Operands
-/

/-- A line feed is escaped, as is everything else that does not show. -/
theorem newline_not_mem_listingChar (c : Char) : '\n' ∉ listingChar c := by
  unfold listingChar
  split
  case h_7 hfeed _ _ _ =>
      split
      · intro hmem
        simp only [List.mem_append] at hmem
        rcases hmem with (hmem | hmem) | hmem
        · revert hmem
          decide
        · obtain ⟨d, hd, hdigit⟩ := exists_of_mem_toDigits (by decide) hmem
          exact (by decide : ∀ d < 16, '\n' ≠ Nat.digitChar d) d hd hdigit
        · revert hmem
          decide
      · intro hmem
        exact hfeed (List.mem_singleton.1 hmem).symm
  all_goals decide

theorem OneLine.listingText (s : String) : OneLine (Text.listingText s) := by
  intro hmem
  rw [Text.listingText, String.toList_ofList, List.mem_append, List.mem_cons] at hmem
  rcases hmem with (hmem | hmem) | hmem
  · cases hmem
  · obtain ⟨c, -, hc⟩ := List.mem_flatMap.1 hmem
    exact newline_not_mem_listingChar c hc
  · cases List.mem_singleton.1 hmem

end Text

open Text

theorem Decimal.oneLine_positional (digits : Nat) (exponent : Int) : OneLine (positional digits exponent) := by
  unfold positional
  split
  · exact .decimal _
  · exact (((OneLine.decimal _).append (.ofChars ['.'] rfl)).append (.replicate (by decide) _)).append (.decimal _)

theorem Single.oneLine_text (v : Single) : OneLine v.text := by
  have hsign : OneLine v.sign := by
    unfold Single.sign
    split <;> exact .ofChars _ rfl
  unfold Single.text
  split
  · exact .ofChars _ rfl
  · exact hsign.append (.ofChars _ rfl)
  · exact hsign.append (.ofChars _ rfl)
  · exact hsign.append (Decimal.oneLine_positional _ _)

theorem Opcode.oneLine_name (opcode : Opcode) : OneLine opcode.name := by
  cases opcode <;> exact .ofChars _ rfl

theorem Opcode.oneLine_text (opcode : Opcode) : OneLine opcode.text := by
  unfold Opcode.text
  split
  · exact ((OneLine.ofChars _ rfl).append (.codeByte _)).append (.ofChars _ rfl)
  · exact ((OneLine.ofChars _ rfl).append (.decimal _)).append (.ofChars _ rfl)
  · exact ((OneLine.ofChars _ rfl).append (.decimal _)).append (.ofChars _ rfl)
  · exact ((OneLine.ofChars _ rfl).append (.codeByte _)).append (.ofChars _ rfl)
  · exact opcode.oneLine_name

/-- Whatever an instruction holds is said on one line. -/
theorem Instruction.oneLine_detail (i : Instruction) : OneLine i.detail := by
  unfold Instruction.detail
  split
  case h_1 | h_2 | h_3 | h_5 | h_6 => exact (OneLine.ofChars _ rfl).append (.address _)
  case h_4 =>
      split
      · exact .ofChars _ rfl
      · exact (OneLine.ofChars _ rfl).append (.address _)
  case h_8 => exact (OneLine.ofChars _ rfl).append (.decimal _)
  case h_9 => exact (OneLine.ofChars _ rfl).append (Single.oneLine_text _)
  case h_10 => exact (OneLine.ofChars _ rfl).append (.listingText _)
  case h_7 | h_11 | h_12 | h_13 | h_14 | h_15 | h_16 | h_17 => exact (OneLine.ofChars _ rfl).append (.integer _)
  case h_18 => exact ((OneLine.ofChars _ rfl).append (.decimal _)).append (.ofChars _ rfl)
  case h_19 =>
      exact (((OneLine.ofChars _ rfl).append (.integer _)).append (.ofChars _ rfl)).append (.integer _)
  case h_20 => exact (OneLine.ofChars _ rfl).append (.codeByte _)
  case h_21 => exact .ofChars _ rfl

theorem DecodeError.oneLine_message (error : DecodeError) : OneLine error.message := by
  unfold DecodeError.message
  split
  · exact ((((OneLine.ofChars _ rfl).append (.address _)).append (.ofChars _ rfl)).append (.decimal _)).append
      (.ofChars _ rfl)
  all_goals exact (OneLine.ofChars _ rfl).append (.address _)

theorem Format.oneLine_text (format : Format) : OneLine format.text :=
  ((OneLine.decimal _).append (.ofChars _ rfl)).append (.decimal _)

theorem Format.oneLine_era (format : Format) : OneLine format.era := by
  unfold Format.era
  split
  · exact .ofChars _ rfl
  · split <;> exact .ofChars _ rfl

/-!
### Columns
-/

namespace Text

/-- Where the instruction of a line stands, and by how many blanks it is indented. -/
structure Columns where
  position : Nat
  storagePosition : Nat
  indent : Nat
deriving Repr, DecidableEq

/-- Reads the columns of a line: a numeral up to a blank, a numeral in brackets, and behind the two sizes, of which the
    second takes at least three characters, the blanks before the kind. -/
def readColumns (line : List Char) : Columns :=
  let storage := (line.dropWhile (· != ' ')).drop 2
  let sizes := (storage.dropWhile (· != '/')).drop 1
  let kind := sizes.drop (max 3 (sizes.takeWhile (· != ' ')).length + 1)
  { position := readHex (line.takeWhile (· != ' '))
    storagePosition := readHex (storage.takeWhile (· != ']'))
    indent := (kind.takeWhile (· == ' ')).length }

/-- What stands before the first mark and what stands from there on. -/
theorem span_mark {text : List Char} {mark : Char} (h : mark ∉ text) (rest : List Char) :
    (text ++ mark :: rest).takeWhile (· != mark) = text ∧
      (text ++ mark :: rest).dropWhile (· != mark) = mark :: rest := by
  have hother : ∀ c ∈ text, (c != mark) = true := by
    intro c hc
    rw [bne_iff_ne]
    rintro rfl
    exact h hc
  rw [List.takeWhile_append_of_pos hother, List.dropWhile_append_of_pos hother]
  simp

/-- The text starts with a character other than a blank. -/
def Flush (text : String) : Prop := ∃ c rest, text.toList = c :: rest ∧ c ≠ ' '

theorem Flush.ofChars {c : Char} (rest : List Char) (h : c ≠ ' ') : Flush (String.ofList (c :: rest)) :=
  ⟨c, rest, String.toList_ofList, h⟩

theorem Flush.append {a : String} (h : Flush a) (b : String) : Flush (a ++ b) := by
  obtain ⟨c, rest, ha, hc⟩ := h
  exact ⟨c, rest ++ b.toList, by rw [String.toList_append, ha, List.cons_append], hc⟩

/-- Behind a numeral that is padded to three characters, and the blank that follows. -/
theorem drop_size (n : Nat) (rest : List Char) :
    let column := (padRight 3 ' ' (toString n)).toList ++ ' ' :: rest
    column.drop (max 3 (column.takeWhile (· != ' ')).length + 1) = rest := by
  intro column
  have hfill : List.replicate (3 - (toString n).length) ' ' ++ ' ' :: rest =
      ' ' :: (List.replicate (3 - (toString n).length) ' ' ++ rest) := by
    rw [← List.singleton_append, ← List.append_assoc, ← List.replicate_succ', List.replicate_succ, List.cons_append]
  have hcolumn : column = (toString n).toList ++ ' ' :: (List.replicate (3 - (toString n).length) ' ' ++ rest) := by
    simp only [column, padRight, String.toList_append, String.toList_ofList, List.append_assoc, hfill]
  have hpast : (toString n).toList ++ ' ' :: (List.replicate (3 - (toString n).length) ' ' ++ rest) =
      ((toString n).toList ++ ' ' :: List.replicate (3 - (toString n).length) ' ') ++ rest := by
    rw [List.append_assoc, List.cons_append]
  rw [hcolumn, (span_mark ((isAlphanumeric_decimal n).not_mem rfl) _).1, hpast]
  apply List.drop_left'
  simp only [List.length_append, List.length_cons, List.length_replicate, String.length_toList]
  omega

/-- Blanks are counted up to the first other character. -/
theorem takeWhile_blanks {text : String} (h : Flush text) (count : Nat) (rest : List Char) :
    (List.replicate count ' ' ++ (text.toList ++ rest)).takeWhile (· == ' ') = List.replicate count ' ' := by
  obtain ⟨c, tail, htext, hc⟩ := h
  rw [List.takeWhile_append_of_pos fun d hd => beq_iff_eq.2 (List.eq_of_mem_replicate hd), htext]
  simp [hc]

theorem toList_join_blanks (depth : Nat) :
    (String.join (List.replicate depth "  ")).toList = List.replicate (2 * depth) ' ' := by
  rw [String.toList_join]
  induction depth with
  | zero => rfl
  | succ depth ih =>
      rw [List.replicate_succ, List.flatMap_cons, ih, Nat.mul_succ, Nat.add_comm, ← List.replicate_append_replicate]
      rfl

end Text

theorem Opcode.flush_name (opcode : Opcode) : Flush opcode.name := by
  cases opcode <;> exact .ofChars _ (by decide)

theorem Opcode.flush_text (opcode : Opcode) : Flush opcode.text := by
  unfold Opcode.text
  split
  case h_5 => exact opcode.flush_name
  all_goals exact ((Flush.ofChars _ (by decide)).append _).append _

namespace Instruction

theorem oneLine_line (i : Instruction) (depth : Nat) : OneLine (i.line depth) := by
  have hindent : OneLine (String.join (List.replicate depth "  ")) := by
    rw [OneLine, toList_join_blanks]
    exact fun hmem => absurd (List.eq_of_mem_replicate hmem) (by decide)
  exact (((((((((OneLine.hexUpper _ _).append (.ofChars _ rfl)).append (.hexUpper _ _)).append
    (.ofChars _ rfl)).append ((OneLine.decimal _).padLeft _)).append (.ofChars _ rfl)).append
    ((OneLine.decimal _).padRight _)).append (.ofChars _ rfl)).append hindent).append
    i.opcode.oneLine_text |>.append i.oneLine_detail

theorem toList_line (i : Instruction) (depth : Nat) : (i.line depth).toList =
    (hexUpper 4 i.position).toList ++ ' ' :: ('[' :: ((hexUpper 4 i.storagePosition).toList ++ ']' :: (' ' ::
      ((padLeft 3 ' ' (toString i.size)).toList ++ '/' :: ((padRight 3 ' ' (toString i.storageSize)).toList ++ ' ' ::
        (List.replicate (2 * depth) ' ' ++ (i.opcode.text.toList ++ i.detail.toList))))))) := by
  have hline : i.line depth = hexUpper 4 i.position ++ " [" ++ hexUpper 4 i.storagePosition ++ "] " ++
      padLeft 3 ' ' (toString i.size) ++ "/" ++ padRight 3 ' ' (toString i.storageSize) ++ " " ++
      String.join (List.replicate depth "  ") ++ i.opcode.text ++ i.detail := rfl
  have hbracket : " [".toList = [' ', '['] := rfl
  have hclose : "] ".toList = [']', ' '] := rfl
  have hslash : "/".toList = ['/'] := rfl
  have hblank : " ".toList = [' '] := rfl
  rw [hline]
  simp only [String.toList_append, toList_join_blanks, hbracket, hclose, hslash, hblank, List.append_assoc,
    List.cons_append, List.nil_append]

/-- The columns of a line give back where its instruction stands and how deep it is nested. -/
theorem readColumns_line (i : Instruction) (depth : Nat) :
    readColumns (i.line depth).toList = ⟨i.position, i.storagePosition, 2 * depth⟩ := by
  have hposition : ' ' ∉ (hexUpper 4 i.position).toList := (isAlphanumeric_hexUpper _ _).not_mem rfl
  have hstorage : ']' ∉ (hexUpper 4 i.storagePosition).toList := (isAlphanumeric_hexUpper _ _).not_mem rfl
  have hsizes : '/' ∉ (hexUpper 4 i.storagePosition).toList ++ ']' :: (' ' ::
      (padLeft 3 ' ' (toString i.size)).toList) := by
    have hhex : '/' ∉ (hexUpper 4 i.storagePosition).toList := (isAlphanumeric_hexUpper _ _).not_mem rfl
    have hsize : '/' ∉ (padLeft 3 ' ' (toString i.size)).toList := by
      rw [padLeft, String.toList_append, String.toList_ofList, List.mem_append]
      rintro (hmem | hmem)
      · cases List.eq_of_mem_replicate hmem
      · exact (isAlphanumeric_decimal _).not_mem rfl hmem
    rw [List.mem_append, List.mem_cons, List.mem_cons]
    rintro (hmem | hmem | hmem | hmem)
    · exact hhex hmem
    · cases hmem
    · cases hmem
    · exact hsize hmem
  have hdrop := (span_mark hsizes ((padRight 3 ' ' (toString i.storageSize)).toList ++ ' ' ::
    (List.replicate (2 * depth) ' ' ++ (i.opcode.text.toList ++ i.detail.toList)))).2
  rw [List.append_assoc, List.cons_append, List.cons_append] at hdrop
  rw [toList_line]
  unfold readColumns
  simp only [span_mark hposition, span_mark hstorage, List.drop_succ_cons, List.drop_zero, hdrop, drop_size,
    takeWhile_blanks i.opcode.flush_text, readHex_hexUpper, List.length_replicate]

end Instruction

namespace Body

theorem oneLine_listingLines {body : Body} (h : OneLine body.declaration) :
    ∀ line ∈ body.listingLines, OneLine line := by
  have hheader : OneLine body.listingHeader :=
    (((((((OneLine.ofChars _ rfl).append h).append (.ofChars _ rfl)).append body.format.oneLine_text).append
      (.ofChars _ rfl)).append body.format.oneLine_era).append (.ofChars _ rfl)).append
      ((OneLine.decimal _).append (.ofChars _ rfl)) |>.append
      ((((OneLine.ofChars _ rfl).append (.address _)).append (.ofChars _ rfl)).append (.address _))
  have hfooter : ∀ line ∈ body.listingFooter, OneLine line := by
    intro line hline
    unfold listingFooter at hline
    split at hline
    · cases hline
      exact (OneLine.ofChars _ rfl).append (DecodeError.oneLine_message _)
    · split at hline
      · cases hline
      · cases hline
        exact .ofChars _ rfl
  intro line hline
  unfold listingLines at hline
  rcases List.mem_append.1 hline with hline | hline
  · rcases List.mem_cons.1 hline with rfl | hline
    · exact hheader
    · obtain ⟨i, -, hline⟩ := List.mem_flatMap.1 hline
      obtain ⟨⟨depth, node⟩, -, rfl⟩ := List.mem_map.1 hline
      exact node.oneLine_line depth
  · exact hfooter line (Option.mem_toList.1 hline)

/-- The last line is there when decoding failed or the sizes differ. -/
theorem isSome_listingFooter (body : Body) :
    body.listingFooter.isSome = true ↔ body.failure.isSome = true ∨ body.consumed ≠ body.declaredSize := by
  unfold listingFooter
  cases body.failure with
  | some failure => simp
  | none =>
      unfold isIntact
      by_cases hsize : body.declaredSize = body.consumed
      · simp [hsize]
      · simp [hsize, Ne.symm hsize]

end Body

/-- Lines that are ended by line feeds and hold none are found again between them. -/
theorem Text.splitOn_join {lines : List String} (h : ∀ line ∈ lines, OneLine line) :
    (String.join (lines.map (· ++ "\n"))).toList.splitOn '\n' = lines.map String.toList ++ [[]] := by
  rw [String.toList_join]
  induction lines with
  | nil => rfl
  | cons line rest ih =>
      have hline : '\n' ∉ line.toList := h line (List.mem_cons_self ..)
      have hend : "\n".toList = ['\n'] := rfl
      rw [List.map_cons, List.flatMap_cons, String.toList_append, List.append_assoc, hend, List.singleton_append,
        List.splitOn_append_cons_self_of_not_mem hline, ih fun l hl => h l (List.mem_cons_of_mem _ hl)]
      rfl

end ScriptBytecode
