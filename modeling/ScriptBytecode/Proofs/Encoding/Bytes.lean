/-
Module: ScriptBytecode.Proofs.Encoding.Bytes
Purpose: Numbers and texts as bytes, and that readers give back what was written, whatever follows it. Compact indices
  are written with as few bytes as hold their magnitude, wide texts as UTF-16 units with surrogate pairs.
Main exports: digits, compactBytes, encodeUnit, ansiBytes, wideBytes, Recovers, recovers_word, recovers_int,
  recovers_compactIndex, recovers_ansiString, recovers_wideString
-/
import Mathlib.Algebra.Ring.Nat
import Mathlib.Data.List.TakeDrop
import ScriptBytecode.Proofs.Decoding.Movement

namespace ScriptBytecode

/-- The reader takes exactly the given bytes, whatever follows them, and gives the value. -/
def Recovers {α : Type} (reader : Reader α) (bytes : List UInt8) (value : α) : Prop :=
  ∀ offset rest, reader ⟨offset, bytes ++ rest⟩ = .ok value ⟨offset + bytes.length, rest⟩

section

variable {α β : Type}

theorem Recovers.pure (value : α) : Recovers (pure value) [] value :=
  fun _ _ => rfl

/-- One value after another. -/
theorem Recovers.bind {reader : Reader α} {next : α → Reader β} {first second : List UInt8}
    {value : α} {result : β} (hfirst : Recovers reader first value)
    (hnext : Recovers (next value) second result) :
    Recovers (reader >>= next) (first ++ second) result := by
  intro offset rest
  rw [bind_apply, List.append_assoc, hfirst, List.length_append, ← Nat.add_assoc]
  exact hnext _ _

/-- A value that is made from another. -/
theorem Recovers.map {reader : Reader α} {bytes : List UInt8} {value : α} (h : Recovers reader bytes value)
    (f : α → β) : Recovers (do return f (← reader)) bytes (f value) := by
  intro offset rest
  rw [bind_apply, h]
  rfl

end

/-!
### Numbers
-/

/-- The lowest `count` digits of a number to base 256, the lowest first. -/
def digits : (count : Nat) → Nat → List UInt8
  | 0, _ => []
  | count + 1, n => UInt8.ofNat n :: digits count (n / 256)

@[simp] theorem length_digits (count n : Nat) : (digits count n).length = count := by
  induction count generalizing n with
  | zero => rfl
  | succ count ih => rw [digits, List.length_cons, ih]

/-- Digits give their number back. -/
theorem littleEndian_digits (count n : Nat) (h : n < 256 ^ count) :
    littleEndian (digits count n) = n := by
  induction count generalizing n with
  | zero =>
      rw [Nat.pow_zero] at h
      exact (Nat.lt_one_iff.1 h).symm
  | succ count ih =>
      have hrest : n / 256 < 256 ^ count := by
        rw [Nat.pow_succ] at h
        exact Nat.div_lt_of_lt_mul (by omega)
      rw [digits, littleEndian, ih _ hrest, UInt8.toNat_ofNat']
      omega

theorem splitExactly_append {α : Type} (taken rest : List α) :
    splitExactly taken.length (taken ++ rest) = some (taken, rest) := by
  induction taken with
  | nil => rfl
  | cons x taken ih => simp [splitExactly, ih]

theorem recovers_take (bytes : List UInt8) : Recovers (Reader.take bytes.length) bytes bytes := by
  intro offset rest
  simp only [Reader.take, splitExactly_append]

theorem recovers_byte (value : UInt8) : Recovers Reader.byte [value] value :=
  fun _ _ => rfl

theorem recovers_word (value : UInt16) : Recovers Reader.word (digits 2 value.toNat) value := by
  have hvalue : UInt16.ofNat (littleEndian (digits 2 value.toNat)) = value := by
    rw [littleEndian_digits 2 _ value.toNat_lt, UInt16.ofNat_toNat]
  have hread := (recovers_take (digits 2 value.toNat)).map fun bytes =>
    UInt16.ofNat (littleEndian bytes)
  rwa [hvalue, length_digits] at hread

theorem recovers_dword (value : UInt32) : Recovers Reader.dword (digits 4 value.toNat) value := by
  have hvalue : UInt32.ofNat (littleEndian (digits 4 value.toNat)) = value := by
    rw [littleEndian_digits 4 _ value.toNat_lt, UInt32.ofNat_toNat]
  have hread := (recovers_take (digits 4 value.toNat)).map fun bytes =>
    UInt32.ofNat (littleEndian bytes)
  rwa [hvalue, length_digits] at hread

theorem recovers_int (value : Int32) : Recovers Reader.int (digits 4 value.toUInt32.toNat) value :=
  (recovers_dword value.toUInt32).map UInt32.toInt32

theorem recovers_single (value : Single) : Recovers Reader.single (digits 4 value.bits.toNat) value :=
  (recovers_dword value.bits).map Single.mk

/-!
### Compact indices
-/

/-- The digits of a number to base 128, the lowest first; all but the last have the high bit set. -/
def compactDigits (n : Nat) : List UInt8 :=
  if n < 0x80 then [UInt8.ofNat n] else UInt8.ofNat (n % 0x80 + 0x80) :: compactDigits (n / 0x80)
termination_by n
decreasing_by omega

/-- A compact index: its sign, whether more follows, and six bits of its magnitude, then the others. -/
def compactBytes (value : Int32) : List UInt8 :=
  let magnitude := value.toInt.natAbs
  let sign := if value.toInt < 0 then 0x80 else 0
  if magnitude < 0x40 then [UInt8.ofNat (sign + magnitude)]
  else UInt8.ofNat (sign + (0x40 + magnitude % 0x40)) :: compactDigits (magnitude / 0x40)

/-- The higher digits come back, scaled, if they fit in the bytes that may follow. -/
theorem recovers_compactTail (start : Nat) {left : Nat} :
    ∀ {n : Nat} (scale : Nat), n < 0x80 ^ left → 0 < left →
      Recovers (Reader.compactTail start left scale) (compactDigits n) (n * scale) := by
  induction left with
  | zero => exact fun _ _ hleft => absurd hleft (Nat.lt_irrefl 0)
  | succ left ih =>
      intro n scale hn _
      unfold Reader.compactTail
      by_cases hlast : n < 0x80
      · have hbyte : (UInt8.ofNat n).toNat = n := by rw [UInt8.toNat_ofNat']; omega
        rw [compactDigits, if_pos hlast]
        show Recovers _ ([UInt8.ofNat n] ++ []) _
        refine (recovers_byte _).bind ?_
        rw [hbyte, if_neg (by omega), Nat.mod_eq_of_lt hlast]
        exact Recovers.pure _
      · have hrest : n / 0x80 < 0x80 ^ left := by
          rw [Nat.pow_succ] at hn
          exact Nat.div_lt_of_lt_mul (by omega)
        have hleft : 0 < left := by
          rcases Nat.eq_zero_or_pos left with rfl | hleft
          · rw [Nat.pow_zero] at hrest
            omega
          · exact hleft
        have hbyte : (UInt8.ofNat (n % 0x80 + 0x80)).toNat = n % 0x80 + 0x80 := by
          rw [UInt8.toNat_ofNat']
          omega
        have hvalue : n * scale = n % 0x80 * scale + n / 0x80 * (scale * 0x80) := by
          calc n * scale = (n % 0x80 + 0x80 * (n / 0x80)) * scale := by rw [Nat.mod_add_div]
            _ = n % 0x80 * scale + n / 0x80 * (scale * 0x80) := by grind
        rw [compactDigits, if_neg hlast, hvalue]
        refine (recovers_byte _).bind ?_
        rw [hbyte, if_pos (by omega), Nat.add_mod_right, Nat.mod_mod]
        exact (ih (scale * 0x80) hrest hleft).map _

/-- A magnitude that was written with a sign comes back. -/
theorem recovers_compactValue (start : Nat) {value : Int32} (hvalue : value ≠ Int32.minValue)
    {first : UInt8} (hsign : 0x80 ≤ first.toNat ↔ value.toInt < 0) :
    Recovers (Reader.compactValue start first value.toInt.natAbs) [] value := by
  have hmin : value.toInt ≠ -2 ^ 31 := fun h => hvalue (Int32.toInt_inj.1 h)
  have hlow := value.le_toInt
  have hhigh := value.toInt_lt
  unfold Reader.compactValue
  rw [if_neg (by omega)]
  split
  · rename_i hnegative
    have hback : -(value.toInt.natAbs : Int) = value.toInt := by
      have := hsign.1 hnegative
      omega
    rw [hback, Int32.ofInt_toInt]
    exact Recovers.pure _
  · rename_i hnegative
    have hback : (value.toInt.natAbs : Int) = value.toInt := by
      have := mt hsign.2 hnegative
      omega
    rw [← Int32.ofInt_eq_ofNat, hback, Int32.ofInt_toInt]
    exact Recovers.pure _

/-- Every index but the least comes back from its compact form. -/
theorem recovers_compactIndex {value : Int32} (hvalue : value ≠ Int32.minValue) :
    Recovers Reader.compactIndex (compactBytes value) value := by
  have hbound : value.toInt.natAbs ≤ 2 ^ 31 := by
    have hlow := value.le_toInt
    have hhigh := value.toInt_lt
    omega
  set sign := if value.toInt < 0 then 0x80 else 0 with hsign
  have hsigns : (0x80 ≤ sign ↔ value.toInt < 0) ∧ (sign = 0 ∨ sign = 0x80) := by
    rw [hsign]
    split <;> omega
  -- The first byte holds the sign and `low`; what is left to show is that the magnitude comes back after it.
  have hparts : ∀ {low : Nat} {tail : List UInt8}, low < 0x80 →
      (∀ start first, first.toNat = sign + low →
        Recovers (Reader.compactMagnitude start first) tail value.toInt.natAbs) →
      Recovers Reader.compactIndex (UInt8.ofNat (sign + low) :: tail) value := by
    intro low tail hlow hmagnitude offset rest
    have hfirst : (UInt8.ofNat (sign + low)).toNat = sign + low := by
      rw [UInt8.toNat_ofNat']
      omega
    have hrest := (hmagnitude offset _ hfirst).bind
      (recovers_compactValue offset hvalue (by rw [hfirst]; omega))
    rw [List.append_nil] at hrest
    show (Reader.byte >>= fun first => Reader.compactMagnitude offset first >>=
      Reader.compactValue offset first) ⟨offset, [UInt8.ofNat (sign + low)] ++ tail ++ rest⟩ = _
    exact Recovers.bind (recovers_byte _) hrest offset rest
  unfold compactBytes
  dsimp only
  rw [← hsign]
  generalize value.toInt.natAbs = magnitude at hparts hbound ⊢
  split
  · rename_i hsmall
    refine hparts (by omega) fun start first hfirst => ?_
    unfold Reader.compactMagnitude
    dsimp only
    rw [hfirst, if_neg (by omega), show (sign + magnitude) % 0x40 = magnitude by omega]
    exact Recovers.pure _
  · refine hparts (by omega) fun start first hfirst => ?_
    have htail : Recovers (Reader.compactTail start 4 0x40) (compactDigits (magnitude / 0x40))
        (magnitude / 0x40 * 0x40) :=
      recovers_compactTail start 0x40 (by omega) (by omega)
    unfold Reader.compactMagnitude
    dsimp only
    rw [hfirst, if_pos (by omega),
      show (sign + (0x40 + magnitude % 0x40)) % 0x40 = magnitude % 0x40 by omega]
    have hread := htail.map (magnitude % 0x40 + ·)
    rwa [show magnitude % 0x40 + magnitude / 0x40 * 0x40 = magnitude by omega] at hread

/-!
### Texts
-/

/-- Single-byte characters and a zero byte. -/
def ansiBytes (text : String) : List UInt8 := text.toList.map (fun c => UInt8.ofNat c.toNat) ++ [0]

/-- UTF-16 units of a character. -/
def encodeUnit (c : Char) : List UInt16 :=
  if c.toNat < 0x10000 then [UInt16.ofNat c.toNat]
  else [UInt16.ofNat (0xD800 + (c.toNat - 0x10000) / 0x400), UInt16.ofNat (0xDC00 + (c.toNat - 0x10000) % 0x400)]

/-- The bytes of UTF-16 units. -/
def unitBytes (units : List UInt16) : List UInt8 := units.flatMap fun unit => digits 2 unit.toNat

/-- UTF-16 units of a text and a zero unit. -/
def wideBytes (text : String) : List UInt8 := unitBytes (text.toList.flatMap encodeUnit ++ [0])

theorem recovers_ansiString {text : String}
    (h : ∀ c ∈ text.toList, c ≠ Char.ofNat 0 ∧ c.toNat ≤ 0xFF) :
    Recovers Reader.ansiString (ansiBytes text) (text, (ansiBytes text).length) := by
  intro offset rest
  set bytes := text.toList.map fun c => UInt8.ofNat c.toNat with hbytes
  have hbyte : ∀ c ∈ text.toList, (UInt8.ofNat c.toNat).toNat = c.toNat := by
    intro c hc
    have := (h c hc).2
    rw [UInt8.toNat_ofNat']
    omega
  have hnonzero : ∀ b ∈ bytes, (b != 0) = true := by
    intro b hb
    obtain ⟨c, hc, rfl⟩ := List.mem_map.1 hb
    rw [bne_iff_ne]
    intro hzero
    have hnat := hbyte c hc
    rw [hzero] at hnat
    exact (h c hc).1 (by rw [← Char.ofNat_toNat c, ← hnat]; rfl)
  have hchars : bytes.map (fun b => Char.ofNat b.toNat) = text.toList := by
    rw [hbytes, List.map_map]
    refine (List.map_congr_left fun c hc => ?_).trans (List.map_id _)
    rw [Function.comp_apply, hbyte c hc, Char.ofNat_toNat]
    rfl
  have hspan : (ansiBytes text ++ rest).span (· != 0) = (bytes, 0 :: rest) := by
    rw [ansiBytes, ← hbytes, List.append_assoc, List.span_eq_takeWhile_dropWhile,
      List.takeWhile_append_of_pos hnonzero, List.dropWhile_append_of_pos hnonzero]
    simp
  unfold Reader.ansiString
  rw [hspan]
  simp only [hchars, String.ofList_toList, ansiBytes, ← hbytes, List.length_append, List.length_singleton,
    Nat.add_assoc]

theorem length_unitBytes (units : List UInt16) : (unitBytes units).length = 2 * units.length := by
  induction units with
  | nil => rfl
  | cons unit units ih =>
      rw [unitBytes, List.flatMap_cons, List.length_append, length_digits, List.length_cons]
      rw [unitBytes] at ih
      omega

/-- Units up to a zero unit come back. -/
theorem splitUnits_unitBytes {units : List UInt16} (h : ∀ unit ∈ units, unit ≠ 0) (rest : List UInt8) :
    splitUnits (unitBytes (units ++ [0]) ++ rest) = (units, some rest) := by
  induction units with
  | nil => rfl
  | cons unit units ih =>
      have hunit : UInt16.ofNat (littleEndian
          [UInt8.ofNat unit.toNat, UInt8.ofNat (unit.toNat / 256)]) = unit := by
        show UInt16.ofNat (littleEndian (digits 2 unit.toNat)) = unit
        rw [littleEndian_digits 2 _ unit.toNat_lt, UInt16.ofNat_toNat]
      have hrest := ih fun u hu => h u (List.mem_cons_of_mem _ hu)
      show splitUnits (UInt8.ofNat unit.toNat :: UInt8.ofNat (unit.toNat / 256) ::
        (unitBytes (units ++ [0]) ++ rest)) = _
      rw [splitUnits, hunit, hrest]
      exact if_neg (h unit (List.mem_cons_self ..))

theorem isLead_iff {unit : UInt16} :
    Text.isLead unit = true ↔ 0xD800 ≤ unit.toNat ∧ unit.toNat < 0xDC00 := by
  simp [Text.isLead, UInt16.le_iff_toNat_le, UInt16.lt_iff_toNat_lt]

theorem isTrail_iff {unit : UInt16} :
    Text.isTrail unit = true ↔ 0xDC00 ≤ unit.toNat ∧ unit.toNat < 0xE000 := by
  simp [Text.isTrail, UInt16.le_iff_toNat_le, UInt16.lt_iff_toNat_lt]

/-- A unit that begins no pair stands for a character of its own. -/
theorem decodeUnits_cons {unit : UInt16} (h : Text.isLead unit = false) (rest : List UInt16) :
    Text.decodeUnits (unit :: rest) = Text.lone unit :: Text.decodeUnits rest := by
  cases rest with
  | nil => rfl
  | cons next rest => rw [Text.decodeUnits, h, Bool.false_and, if_neg Bool.false_ne_true]

/-- A character is read back from its units, whatever follows them. -/
theorem decodeUnits_encodeUnit (c : Char) (rest : List UInt16) :
    Text.decodeUnits (encodeUnit c ++ rest) = c :: Text.decodeUnits rest := by
  have hvalid : c.toNat < 0xD800 ∨ 0xDFFF < c.toNat ∧ c.toNat < 0x110000 := c.valid
  unfold encodeUnit
  split
  · rename_i hsmall
    have hunit : (UInt16.ofNat c.toNat).toNat = c.toNat := by
      rw [UInt16.toNat_ofNat']
      omega
    have hlead : Text.isLead (UInt16.ofNat c.toNat) = false := by
      rw [← Bool.not_eq_true, isLead_iff, hunit]
      omega
    have htrail : Text.isTrail (UInt16.ofNat c.toNat) = false := by
      rw [← Bool.not_eq_true, isTrail_iff, hunit]
      omega
    rw [List.singleton_append, decodeUnits_cons hlead, Text.lone, hlead, htrail, hunit,
      Char.ofNat_toNat]
    rfl
  · rename_i hlarge
    have hlead : (UInt16.ofNat (0xD800 + (c.toNat - 0x10000) / 0x400)).toNat =
        0xD800 + (c.toNat - 0x10000) / 0x400 := by
      rw [UInt16.toNat_ofNat']
      omega
    have htrail : (UInt16.ofNat (0xDC00 + (c.toNat - 0x10000) % 0x400)).toNat =
        0xDC00 + (c.toNat - 0x10000) % 0x400 := by
      rw [UInt16.toNat_ofNat']
      omega
    have hpair : (Text.isLead (UInt16.ofNat (0xD800 + (c.toNat - 0x10000) / 0x400)) &&
        Text.isTrail (UInt16.ofNat (0xDC00 + (c.toNat - 0x10000) % 0x400))) = true := by
      rw [Bool.and_eq_true, isLead_iff, isTrail_iff, hlead, htrail]
      omega
    rw [List.cons_append, List.singleton_append, Text.decodeUnits, if_pos hpair, Text.paired, hlead,
      htrail]
    rw [show 0x10000 + (0xD800 + (c.toNat - 0x10000) / 0x400 - 0xD800) * 0x400 +
      (0xDC00 + (c.toNat - 0x10000) % 0x400 - 0xDC00) = c.toNat by omega, Char.ofNat_toNat]

theorem decodeUnits_flatMap (chars : List Char) :
    Text.decodeUnits (chars.flatMap encodeUnit) = chars := by
  induction chars with
  | nil => rfl
  | cons c chars ih => rw [List.flatMap_cons, decodeUnits_encodeUnit, ih]

theorem encodeUnit_ne_zero {c : Char} (h : c ≠ Char.ofNat 0) : ∀ unit ∈ encodeUnit c, unit ≠ 0 := by
  have hnat : c.toNat ≠ 0 := fun hzero => h (by rw [← Char.ofNat_toNat c, hzero])
  have hvalid : c.toNat < 0xD800 ∨ 0xDFFF < c.toNat ∧ c.toNat < 0x110000 := c.valid
  have hofNat : ∀ n, n ≠ 0 → n < 0x10000 → UInt16.ofNat n ≠ 0 := by
    intro n hn hlt hzero
    have := congrArg UInt16.toNat hzero
    rw [UInt16.toNat_ofNat', UInt16.toNat_zero] at this
    omega
  unfold encodeUnit
  split
  · simpa using hofNat _ hnat (by omega)
  · simp only [List.mem_cons, List.not_mem_nil, or_false]
    rintro unit (rfl | rfl)
    · exact hofNat _ (by omega) (by omega)
    · exact hofNat _ (by omega) (by omega)

theorem recovers_wideString {text : String} (h : ∀ c ∈ text.toList, c ≠ Char.ofNat 0) :
    Recovers Reader.wideString (wideBytes text) (text, (wideBytes text).length) := by
  intro offset rest
  set units := text.toList.flatMap encodeUnit with hunits
  have hnonzero : ∀ unit ∈ units, unit ≠ 0 := by
    intro unit hunit
    obtain ⟨c, hc, hunit⟩ := List.mem_flatMap.1 hunit
    exact encodeUnit_ne_zero (h c hc) unit hunit
  have hlength : (wideBytes text).length = 2 * (units.length + 1) := by
    rw [wideBytes, length_unitBytes, ← hunits, List.length_append, List.length_singleton]
  unfold Reader.wideString
  rw [wideBytes, ← hunits, splitUnits_unitBytes hnonzero]
  simp only [hunits, decodeUnits_flatMap, String.ofList_toList]
  rw [← hunits, ← hlength, wideBytes]

end ScriptBytecode
