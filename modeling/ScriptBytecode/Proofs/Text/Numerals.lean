/-
Module: ScriptBytecode.Proofs.Text.Numerals
Purpose: Numbers as they are written, and what can be read off them. A numeral is made of letters and digits alone, and
  a hexadecimal numeral gives its number back, to whatever width it has been padded.
Main exports: IsAlphanumeric, isAlphanumeric_hex, isAlphanumeric_hexUpper, isAlphanumeric_decimal, readHex,
  readHex_hexUpper, hexUpper_injective
-/
import ScriptBytecode.Text.Hex

namespace ScriptBytecode.Text

/-- The text is made of letters and digits alone. -/
def IsAlphanumeric (text : List Char) : Prop := ∀ c ∈ text, c.isAlphanum = true

theorem IsAlphanumeric.ne {text : List Char} (h : IsAlphanumeric text) {c mark : Char} (hc : c ∈ text)
    (hmark : mark.isAlphanum = false) : c ≠ mark := by
  rintro rfl
  rw [h c hc] at hmark
  cases hmark

theorem IsAlphanumeric.not_mem {text : List Char} (h : IsAlphanumeric text) {mark : Char}
    (hmark : mark.isAlphanum = false) : mark ∉ text :=
  fun hmem => h.ne hmem hmark rfl

/-- The digits of a number are those of the base. -/
theorem exists_of_mem_toDigits {base n : Nat} (hbase : 1 < base) {c : Char} (h : c ∈ Nat.toDigits base n) :
    ∃ d < base, c = Nat.digitChar d := by
  induction n using Nat.strongRecOn with
  | _ n ih =>
    rw [Nat.toDigits_eq_if hbase] at h
    split at h
    · rename_i hsmall
      exact ⟨n, hsmall, List.mem_singleton.1 h⟩
    · rename_i hlarge
      rcases List.mem_append.1 h with h | h
      · exact ih (n / base) (Nat.div_lt_self (by omega) hbase) h
      · exact ⟨n % base, Nat.mod_lt _ (by omega), List.mem_singleton.1 h⟩

/-- Padding adds nothing but the character it pads with. -/
theorem isAlphanumeric_padLeft {width : Nat} {fill : Char} {s : String} (hfill : fill.isAlphanum = true)
    (hs : IsAlphanumeric s.toList) : IsAlphanumeric (padLeft width fill s).toList := by
  intro c hc
  rw [padLeft, String.toList_append, String.toList_ofList, List.mem_append] at hc
  rcases hc with hc | hc
  · rw [List.eq_of_mem_replicate hc]
    exact hfill
  · exact hs c hc

theorem isAlphanumeric_hex (width n : Nat) : IsAlphanumeric (hex width n).toList := by
  refine isAlphanumeric_padLeft rfl fun c hc => ?_
  rw [String.toList_ofList] at hc
  obtain ⟨d, hd, rfl⟩ := exists_of_mem_toDigits (by decide) hc
  exact (by decide : ∀ d < 16, (Nat.digitChar d).isAlphanum = true) d hd

theorem isAlphanumeric_hexUpper (width n : Nat) : IsAlphanumeric (hexUpper width n).toList := by
  refine isAlphanumeric_padLeft rfl fun c hc => ?_
  rw [String.toList_ofList] at hc
  obtain ⟨digit, hdigit, rfl⟩ := List.mem_map.1 hc
  obtain ⟨d, hd, rfl⟩ := exists_of_mem_toDigits (by decide) hdigit
  exact (by decide : ∀ d < 16, (Nat.digitChar d).toUpper.isAlphanum = true) d hd

theorem isAlphanumeric_decimal (n : Nat) : IsAlphanumeric (toString n).toList := by
  intro c hc
  rw [Nat.toString_eq_ofList_toDigits, String.toList_ofList] at hc
  rw [Char.isAlphanum, Nat.isDigit_of_mem_toDigits (by decide) (by decide) hc, Bool.or_true]

/-!
### Reading back
-/

/-- Value of a hexadecimal digit, in either case. -/
def hexValue (c : Char) : Nat :=
  if c.isDigit then c.toNat - '0'.toNat else c.toUpper.toNat - 'A'.toNat + 10

/-- The number that hexadecimal digits stand for. -/
def readHex (digits : List Char) : Nat := digits.foldl (fun n c => 16 * n + hexValue c) 0

theorem readHex_concat (digits : List Char) (c : Char) :
    readHex (digits ++ [c]) = 16 * readHex digits + hexValue c := by
  simp [readHex]

/-- Leading zeros do not count. -/
theorem readHex_replicate_append (count : Nat) (digits : List Char) :
    readHex (List.replicate count '0' ++ digits) = readHex digits := by
  induction count with
  | zero => rfl
  | succ count ih => exact ih

theorem readHex_toUpper (n : Nat) : readHex ((Nat.toDigits 16 n).map Char.toUpper) = n := by
  have hdigit : ∀ d < 16, hexValue (Nat.digitChar d).toUpper = d := by decide
  induction n using Nat.strongRecOn with
  | _ n ih =>
    rw [Nat.toDigits_eq_if (by decide)]
    split
    · rename_i hsmall
      simp [readHex, hdigit n hsmall]
    · rw [List.map_append, List.map_singleton, readHex_concat, ih (n / 16) (by omega), hdigit _ (by omega)]
      omega

/-- A number is read back from its digits, to whatever width they have been padded. -/
theorem readHex_hexUpper (width n : Nat) : readHex (hexUpper width n).toList = n := by
  rw [hexUpper, padLeft, String.toList_append, String.toList_ofList, String.toList_ofList,
    readHex_replicate_append, readHex_toUpper]

/-- Different numbers are written differently, also those with more digits than the width asks for. -/
theorem hexUpper_injective {width m n : Nat} (h : hexUpper width m = hexUpper width n) : m = n := by
  rw [← readHex_hexUpper width m, h, readHex_hexUpper]

end ScriptBytecode.Text
